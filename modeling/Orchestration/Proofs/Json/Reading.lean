import Orchestration.Proofs.Fields
import Orchestration.Proofs.Json.Tokens

namespace Orchestration

/-- Decimals that JSON texts keep: finite ones other than negative zero whose digits are read as
they are written. -/
structure Decimal.Portable (d : Decimal) : Prop where
  finite : d.isFinite = true
  not_negative_zero : d.isZero = true → d.isNegative = false
  digits : Json.DigitsReadBack d

/-- Values that JSON texts keep, with containers nested at most so deep. -/
inductive Value.Portable : (depth : Nat) → Value → Prop
  | scalar {n s} : (∀ d, s = .decimal d → d.Portable) → Portable n (.scalar s)
  | list {n items} : (∀ v ∈ items, Portable n v) → Portable (n + 1) (.list items)
  | map {n} {fields : Fields Value} :
      fields.keys.Nodup → (∀ e ∈ fields, Portable n e.2) → Portable (n + 1) (.map fields)

namespace Json

variable {d : Dialect} {c c' : Cursor} {t : Token} {ts rest : List Token} {frames : List Frame}
  {n : Nat} {v : Value} {s : Scalar}

def Cursor.run? (d : Dialect) (c : Cursor) (ts : List Token) : Option Cursor :=
  ts.foldlM (Cursor.step? d) c

theorem Cursor.run?_cons (h : c.step? d t = some c') : c.run? d (t :: ts) = c'.run? d ts := by
  rw [Cursor.run?, List.foldlM_cons, h]
  rfl

theorem openValue?_scalar (h : ∀ d, s = .decimal d → d.Portable) (frames : List Frame) :
    openValue? .data frames s.token = some (deliver (.scalar s) frames) := by
  cases s with
  | null => rfl
  | bool b => cases b <;> rfl
  | integer i =>
    show openValue? .data frames (.atom (Scalar.plain (.integer i)).toList) = _
    rw [Scalar.plain, String.toList_ofList, openValue?, atom?_integer]
    rfl
  | decimal d =>
    obtain ⟨hfinite, -, hdigits⟩ := h d rfl
    show openValue? .data frames (.atom (scalar (.decimal d))) = _
    rw [scalar, if_pos hfinite, openValue?, atom?_decimal hdigits]
    rfl
  | text t =>
    rw [Scalar.token, openValue?, String.ofList_toList]

theorem step?_item (ht : t ≠ .mark ']') :
    Cursor.step? d ⟨frames, .item⟩ t = Cursor.step? d ⟨frames, .value⟩ t := by
  unfold Cursor.step?
  dsimp only
  split
  case h_1 => exact absurd rfl ht
  case h_2 => rfl
  all_goals contradiction

theorem exists_tokens_eq_cons (v : Value) : ∃ t ts, v.tokens = t :: ts ∧ t ≠ .mark ']' := by
  cases v with
  | scalar s => exact ⟨s.token, [], rfl, by cases s <;> nofun⟩
  | list items => exact ⟨_, _, rfl, by decide⟩
  | map fields => exact ⟨_, _, rfl, by decide⟩

/-- The first item of a list is read like any other: no value starts with the end of a list. -/
theorem run?_item (v : Value) (vs : List Value) (rest : List Token) :
    Cursor.run? d ⟨frames, .item⟩ (Value.itemTokens (v :: vs) ++ rest) =
      Cursor.run? d ⟨frames, .value⟩ (Value.itemTokens (v :: vs) ++ rest) := by
  obtain ⟨t, ts, hv, ht⟩ := exists_tokens_eq_cons v
  obtain ⟨more, hitems⟩ : ∃ more, Value.itemTokens (v :: vs) = t :: more := by
    cases vs with
    | nil => exact ⟨ts, hv⟩
    | cons w vs => exact ⟨_, congrArg (· ++ _) hv⟩
  rw [hitems, List.cons_append, Cursor.run?, Cursor.run?, List.foldlM_cons, List.foldlM_cons,
    step?_item ht]

def Delivers (n : Nat) (v : Value) : Prop :=
  ∀ (frames : List Frame) (rest : List Token), frames.length + n ≤ Dialect.data.depth →
    Cursor.run? .data ⟨frames, .value⟩ (v.tokens ++ rest) =
      Cursor.run? .data (deliver v frames) rest

theorem run?_itemTokens {items : List Value} (hne : items ≠ []) (h : ∀ v ∈ items, Delivers n v)
    (hdepth : frames.length + (n + 1) ≤ Dialect.data.depth) (seen : List Value)
    (rest : List Token) :
    Cursor.run? .data ⟨.list seen :: frames, .value⟩
        (Value.itemTokens items ++ .mark ']' :: rest) =
      Cursor.run? .data (deliver (.list (seen.reverse ++ items)) frames) rest := by
  induction items generalizing seen with
  | nil => exact absurd rfl hne
  | cons v vs ih =>
    have hv := h v List.mem_cons_self (.list seen :: frames)
    have hroom : (Frame.list seen :: frames).length + n ≤ Dialect.data.depth := by
      rw [List.length_cons]
      omega
    cases vs with
    | nil =>
      have hend : Cursor.step? .data ⟨.list (v :: seen) :: frames, .more⟩ (.mark ']') =
          some (deliver (.list (v :: seen).reverse) frames) := rfl
      rw [Value.itemTokens, hv _ hroom, deliver, Cursor.run?_cons hend, List.reverse_cons]
    | cons w vs =>
      have hcomma : Cursor.step? .data ⟨.list (v :: seen) :: frames, .more⟩ (.mark ',') =
          some ⟨.list (v :: seen) :: frames, .value⟩ := rfl
      rw [Value.itemTokens, List.append_assoc, hv _ hroom, deliver, List.cons_append,
        Cursor.run?_cons hcomma, ih nofun (fun v hv => h v (List.mem_cons_of_mem _ hv)),
        List.reverse_cons, List.append_assoc, List.singleton_append]
      nofun

theorem run?_entry {v : Value} (h : Delivers n v)
    (hdepth : frames.length + (n + 1) ≤ Dialect.data.depth) (entries : Fields Value)
    (isFirst : Bool) (k : String) (rest : List Token) :
    Cursor.run? .data ⟨frames, .key entries isFirst⟩
        (.text k.toList :: .mark ':' :: (v.tokens ++ rest)) =
      Cursor.run? .data ⟨.map (entries.insert k v) k :: frames, .more⟩ rest := by
  have hkey : Cursor.step? .data ⟨frames, .key entries isFirst⟩ (.text k.toList) =
      some ⟨frames, .colon entries k⟩ := by
    cases isFirst <;> simp [Cursor.step?]
  have hcolon : Cursor.step? .data ⟨frames, .colon entries k⟩ (.mark ':') =
      some ⟨.map entries k :: frames, .value⟩ := rfl
  have hroom : (Frame.map entries k :: frames).length + n ≤ Dialect.data.depth := by
    rw [List.length_cons]
    omega
  rw [Cursor.run?_cons hkey, Cursor.run?_cons hcolon, h _ _ hroom, deliver]

theorem run?_fieldTokens {fields : Fields Value} (hne : fields ≠ [])
    (h : ∀ e ∈ fields, Delivers n e.2)
    (hdepth : frames.length + (n + 1) ≤ Dialect.data.depth) (entries : Fields Value)
    (isFirst : Bool) (rest : List Token) :
    Cursor.run? .data ⟨frames, .key entries isFirst⟩
        (Value.fieldTokens fields ++ .mark '\x7d' :: rest) =
      Cursor.run? .data (deliver (.map (entries.extend fields)) frames) rest := by
  induction fields generalizing entries isFirst with
  | nil => exact absurd rfl hne
  | cons e fields ih =>
    obtain ⟨k, v⟩ := e
    have hentry := run?_entry (h (k, v) List.mem_cons_self) hdepth entries isFirst k
    cases fields with
    | nil =>
      have hend : Cursor.step? .data ⟨.map (entries.insert k v) k :: frames, .more⟩
          (.mark '\x7d') = some (deliver (.map (entries.insert k v)) frames) := rfl
      rw [Value.fieldTokens, List.cons_append, List.cons_append, hentry, Cursor.run?_cons hend]
      rfl
    | cons e fields =>
      have hcomma : Cursor.step? .data ⟨.map (entries.insert k v) k :: frames, .more⟩
          (.mark ',') = some ⟨frames, .key (entries.insert k v) false⟩ := rfl
      rw [Value.fieldTokens, List.append_assoc, List.cons_append, List.cons_append, hentry,
        List.cons_append, Cursor.run?_cons hcomma,
        ih nofun (fun e he => h e (List.mem_cons_of_mem _ he))]
      · rfl
      · nofun

theorem delivers_of_portable (h : v.Portable n) : Delivers n v := by
  induction h with
  | scalar h => exact fun frames rest _ => Cursor.run?_cons (openValue?_scalar h frames)
  | @list n items _ ih =>
    intro frames rest hdepth
    have hroom : frames.length < Dialect.data.depth := by omega
    have hopen : Cursor.step? .data ⟨frames, .value⟩ (.mark '[') =
        some ⟨.list [] :: frames, .item⟩ := if_pos hroom
    rw [Value.tokens, List.cons_append, List.cons_append, List.append_assoc,
      Cursor.run?_cons hopen]
    cases items with
    | nil => exact Cursor.run?_cons rfl
    | cons v vs =>
      rw [run?_item]
      exact run?_itemTokens (List.cons_ne_nil v vs) ih hdepth [] rest
  | @map n fields hkeys _ ih =>
    intro frames rest hdepth
    have hroom : frames.length < Dialect.data.depth := by omega
    have hopen : Cursor.step? .data ⟨frames, .value⟩ (.mark '\x7b') =
        some ⟨frames, .key [] true⟩ := if_pos hroom
    rw [Value.tokens, List.cons_append, List.cons_append, List.append_assoc,
      Cursor.run?_cons hopen]
    cases fields with
    | nil => exact Cursor.run?_cons rfl
    | cons e fields =>
      have hextend : Fields.extend [] (e :: fields) = e :: fields := Fields.extend_of_nodup hkeys
      have hrun := run?_fieldTokens (List.cons_ne_nil e fields) ih hdepth [] true rest
      rwa [hextend] at hrun

theorem read?_json (h : v.Portable n) (hn : n ≤ Dialect.data.depth) :
    read? .data v.json = some v := by
  have hrun := delivers_of_portable h [] [] ((Nat.zero_add n).symm ▸ hn)
  rw [List.append_nil] at hrun
  rw [read?, Value.json, String.toList_ofList, tokens?_compact]
  show ofTokens? .data v.tokens = some v
  rw [ofTokens?, ← Cursor.run?, hrun]
  rfl

end Json

end Orchestration
