import Orchestration.Proofs.Snippets.Reading

namespace Orchestration

/-- What is negated. Outside of HOT it is the only item of a list. -/
def Version.negated (version : Version) : Value → Value
  | .list [v] => if version.isHot then .list [v] else v
  | v => v

def Version.negatedName? (version : Version) (inConditions : Bool) :
    List (String × Value) → Option String
  | [(name, v)] =>
    match version.reading inConditions name with
    | .negation => (version.negated v).text?
    | _ => none
  | _ => none

section

variable (version : Version) (inConditions : Bool)

mutual

def Value.negatedNames : Value → List String
  | .scalar _ => []
  | .list vs => negatedNamesOfItems vs
  | .map vs => (version.negatedName? inConditions vs).toList ++ negatedNamesOfFields vs

def Value.negatedNamesOfItems : List Value → List String
  | [] => []
  | v :: vs => v.negatedNames ++ negatedNamesOfItems vs

def Value.negatedNamesOfFields : List (String × Value) → List String
  | [] => []
  | (_, v) :: vs => v.negatedNames ++ negatedNamesOfFields vs

end

def Value.namesAsOperand (v : Value) : List String :=
  v.text?.toList ++ v.negatedNames version inConditions

variable {version inConditions} {name : String} {v : Value} {vs : List (String × Value)}

theorem Version.negated_eq (h : version.isHot = false → v.list? = none) :
    version.negated v = v := by
  unfold negated
  split
  · next x =>
    cases hv : version.isHot with
    | false => cases h hv
    | true => rfl
  · rfl

theorem Value.negatedNames_negated :
    (version.negated v).negatedNames version inConditions =
      v.negatedNames version inConditions := by
  unfold Version.negated
  split
  · split
    · rfl
    · simp [negatedNames, negatedNamesOfItems]
  · rfl

theorem Value.negatedNames_of_data
    (h : ∀ name args, vs = [(name, args)] → version.reading inConditions name = .data) :
    (map vs).negatedNames version inConditions =
      negatedNamesOfFields version inConditions vs := by
  have hname : version.negatedName? inConditions vs = none := by
    unfold Version.negatedName?
    split
    · next name v => rw [h name v rfl]
    · rfl
  rw [negatedNames, hname]
  rfl

theorem Value.negatedNames_of_negation (h : version.reading inConditions name = .negation) :
    (map [(name, v)]).negatedNames version inConditions =
      (version.negated v).namesAsOperand version inConditions := by
  rw [namesAsOperand, negatedNames_negated, negatedNames, Version.negatedName?, h]
  simp [negatedNamesOfFields]

theorem Value.negatedNames_of_ne (h : version.reading inConditions name ≠ .negation) :
    (map [(name, v)]).negatedNames version inConditions =
      v.negatedNames version inConditions := by
  have hname : version.negatedName? inConditions [(name, v)] = none := by
    rw [Version.negatedName?]
    split
    · next hn => exact absurd hn h
    · rfl
  rw [negatedNames, hname]
  simp [negatedNamesOfFields]

end

namespace Template

def namesBelow (t : Template) (name : String) : List String :=
  match t.condition? name with
  | none => []
  | some definition => definition.namesAsOperand t.version true

/-- Rows of names that begin with one of those given, each next one below the one before, never
come back to a name, nor to one of those that are being replaced. -/
def NoWayBack (t : Template) (replaced names : List String) : Prop :=
  ∀ first ∈ names, ∀ rest,
    (first :: rest).IsChain (fun name next => next ∈ t.namesBelow name) →
      (first :: rest).Nodup ∧ List.Disjoint (first :: rest) replaced

variable {t : Template} {replaced names names' : List String}

namespace NoWayBack

theorem nil : t.NoWayBack replaced [] := nofun

theorem append (h : t.NoWayBack replaced names) (h' : t.NoWayBack replaced names') :
    t.NoWayBack replaced (names ++ names') := by
  intro first hfirst
  obtain hfirst | hfirst := List.mem_append.1 hfirst
  · exact h first hfirst
  · exact h' first hfirst

theorem singleton {name : String} (hn : name ∉ replaced)
    (h : t.NoWayBack (name :: replaced) (t.namesBelow name)) : t.NoWayBack replaced [name] := by
  intro first hfirst rest hchain
  obtain rfl := List.mem_singleton.1 hfirst
  cases rest with
  | nil => exact ⟨List.nodup_singleton _, by simpa using hn⟩
  | cons next rest =>
    -- the rest of the row begins below the name, where the name counts as being replaced
    obtain ⟨hnext, hchain⟩ := List.isChain_cons_cons.1 hchain
    obtain ⟨hnodup, hdisjoint⟩ := h next hnext rest hchain
    obtain ⟨hfirst, hdisjoint⟩ := List.disjoint_cons_right.1 hdisjoint
    exact ⟨List.nodup_cons.2 ⟨hfirst, hnodup⟩, List.disjoint_cons_left.2 ⟨hn, hdisjoint⟩⟩

end NoWayBack

end Template

variable {t : Template} {stack : StackId}

mutual

theorem Reads.noWayBack {p v s} : Reads t stack p v s →
    t.NoWayBack p.inlining (v.negatedNames t.version p.inConditions)
  | .scalar => .nil
  | .list hs => hs.noWayBack
  | .map hdata hs => by
    rw [Value.negatedNames_of_data hdata]
    exact hs.noWayBack
  | .function hreading hv _ => by
    rw [Value.negatedNames_of_ne (by simp [hreading])]
    exact hv.noWayBack
  | .negation hreading hlist hv => by
    rw [Value.negatedNames_of_negation hreading, Version.negated_eq hlist]
    exact hv.noWayBack
  | .negationOfItem hreading hcfn hv => by
    rw [Value.negatedNames_of_negation hreading, Version.negated, hcfn]
    exact hv.noWayBack
  | .unavailable hreading hv => by
    rw [Value.negatedNames_of_ne (by simp [hreading])]
    exact hv.noWayBack

theorem ReadsItems.noWayBack {p vs ss} : ReadsItems t stack p vs ss →
    t.NoWayBack p.inlining (Value.negatedNamesOfItems t.version p.inConditions vs)
  | .nil => .nil
  | .cons hv hs => hv.noWayBack.append hs.noWayBack

theorem ReadsFields.noWayBack {p vs ss} : ReadsFields t stack p vs ss →
    t.NoWayBack p.inlining (Value.negatedNamesOfFields t.version p.inConditions vs)
  | .nil => .nil
  | .cons hv hs => hv.noWayBack.append hs.noWayBack

theorem ReadsOperand.noWayBack {p v s} : ReadsOperand t stack p v s →
    t.NoWayBack p.inlining (v.namesAsOperand t.version p.inConditions)
  | .plain ht hv => by
    rw [Value.namesAsOperand, ht]
    exact hv.noWayBack
  | .named hn hd hv => by
    refine .singleton hn ?_
    rw [Template.namesBelow, hd]
    exact hv.noWayBack

end

inductive Parser.Request
  | value (v : Value)
  | condition (name : String)

namespace Parser.Request

variable (t : Template) (stack : StackId)

def parse : Request → Parsing Snippet
  | value v => t.parse stack v
  | condition name => t.inlineCondition stack name

/-- What a request comes to with no fuel, and the parser afterwards. -/
def ComesTo (p : Parser) : Request → Result Snippet → Parser → Prop
  | value v => Parses t stack p v []
  | condition name => ParsesOperand t stack p (.text name)

def names (inConditions : Bool) : Request → List String
  | value v => v.negatedNames t.version inConditions
  | condition name => [name]

/-- Make one request after the other of the same parser, whatever they come to. -/
def parseAll (requests : List Request) : StateM Parser (List (Result Snippet)) :=
  requests.mapM fun request => (request.parse t stack).run

variable {t stack} {p after : Parser} {r : Result Snippet} {request : Request}

theorem comesTo_iff :
    request.ComesTo t stack p r after ↔ (request.parse t stack).run p = (r, after) := by
  cases request with
  | value v => exact Template.parse_run_iff.symm
  | condition name => exact Template.inlineCondition_run_iff.symm

theorem ComesTo.after_eq (h : request.ComesTo t stack p r after) : after = p := by
  cases request with
  | value v => exact Parses.after_eq h
  | condition name => exact ParsesOperand.after_eq h

theorem ComesTo.noWayBack {s : Snippet} (h : request.ComesTo t stack p (.ok s) after) :
    t.NoWayBack p.inlining (request.names t p.inConditions) := by
  cases request with
  | value v => exact (Parses.reads h s rfl).noWayBack
  | condition name => exact (ParsesOperand.reads h s rfl).noWayBack

theorem parse_run (request : Request) (p : Parser) :
    (request.parse t stack).run p = (((request.parse t stack).run p).1, p) := by
  have h := comesTo_iff.2 (rfl : (request.parse t stack).run p = _)
  exact Prod.ext rfl h.after_eq

theorem parseAll_run (requests : List Request) (p : Parser) :
    (parseAll t stack requests).run p =
      (requests.map fun request => ((request.parse t stack).run p).1, p) := by
  induction requests with
  | nil => rfl
  | cons request requests ih =>
    unfold parseAll at ih ⊢
    rw [List.mapM_cons]
    refine (Run.bind_state (parse_run request p)).trans ?_
    exact (Run.bind_state ih).trans rfl

/-- Parsing a value, or the definition of a condition, comes to an end whatever the parser is at
and however the definitions of conditions refer to each other: with no fuel it has one outcome,
which is the one found. It finds a snippet only if no names lead back. Whatever it comes to, it
leaves the parser as it was, so requests made one after the other come to what each comes to on its
own. -/
theorem parse_returns (t : Template) (stack : StackId) (p : Parser) (request : Request) :
    (∀ r after, request.ComesTo t stack p r after ↔
      (request.parse t stack).run p = (r, after)) ∧
    ((request.parse t stack).run p).2 = p ∧
    (∀ s, ((request.parse t stack).run p).1 = .ok s →
      t.NoWayBack p.inlining (request.names t p.inConditions)) ∧
    ∀ requests, (parseAll t stack requests).run p =
      (requests.map fun request => ((request.parse t stack).run p).1, p) := by
  refine ⟨fun r after => comesTo_iff, congrArg Prod.snd (parse_run request p), fun s h => ?_,
    fun requests => parseAll_run requests p⟩
  exact ComesTo.noWayBack (comesTo_iff.2 (Prod.ext h rfl))

/-- A condition that negates another is read through, and one of two that lead to each other is
refused. Neither is noticed by what is parsed next. -/
theorem parse_returns_of_ring :
    ∃ t, Template.ofValue (.map [("heat_template_version", .text "2016-10-14"),
        ("conditions", .map [("base", .bool true), ("other", .map [("not", .text "base")]),
          ("first", .text "second"), ("second", .map [("not", .text "first")])])]) = .ok t ∧
      let negation := value (.map [("not", .text "other")])
      let run := (parseAll t ⟨"s"⟩ [negation, condition "first", negation]).run .ordinary
      run.1.map (Snippet.canonical <$> ·) =
        [.ok (.map [("not", .map [("not", .bool true)])]),
          .error (.located [.key "not"] (.circularCondition "first")),
          .ok (.map [("not", .map [("not", .bool true)])])] ∧
      run.2 = .ordinary ∧ t.NoWayBack [] ["other"] ∧
      (condition "first").ComesTo t ⟨"s"⟩ .ordinary
        (.error (.located [.key "not"] (.circularCondition "first"))) .ordinary := by
  refine ⟨_, rfl, ?_⟩
  intro negation run
  obtain ⟨-, -, hnames, hall⟩ := parse_returns _ ⟨"s"⟩ .ordinary negation
  obtain ⟨hring, -⟩ := parse_returns _ ⟨"s"⟩ .ordinary (condition "first")
  exact ⟨rfl, congrArg Prod.snd (hall _), hnames _ rfl, (hring _ _).2 rfl⟩

end Parser.Request

end Orchestration
