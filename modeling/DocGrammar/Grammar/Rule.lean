import DocGrammar.Grammar.State
import DocGrammar.Text

/-!
# Rules and grammars

A grammar is built from immutable rules.  A `Rule N U` has an optional name for diagnostics, a set
of modifiers, and its `Kind`: what it matches.  Rules own the rules inside them; a rule that has
to mention one that is not built yet — itself, for instance — names it by a *symbol* of the type
`N`, and a `Grammar N U` says which rule each symbol stands for.

Rules end in *actions*: functions that read and change the state of the parse.  An action may ask
for a symbol to be matched in the middle of its work, so an action does not return an answer but a
`Program`: either a finished reply, or a symbol to match together with what to do with the reply to
that.  The evaluator runs programs; an action itself never calls the evaluator, and so every action
is a total function, whatever the grammar is.
-/

set_option autoImplicit false

namespace DocGrammar

/-! ## Modifiers

A rule carries a set of modifiers that change how it is matched.  Sets are combined with `union`; in
which order modifiers were added is of no account, since `Rule.step` always applies them in the one
order: `optional` around `lookahead` around `flat` around the repetition. -/

/-- A set of modifiers. -/
structure Modifiers where
  /-- Failing means being left out, and leaves no committed failure. -/
  optional : Bool := false
  /-- Results are dropped; the input is consumed all the same. -/
  lookahead : Bool := false
  /-- Results are replaced by the one span of input that was matched. -/
  flat : Bool := false
  /-- Once or more often. -/
  repeated : Bool := false
  /-- Any number of times; not even once means being left out. -/
  repeatedOrNone : Bool := false
  deriving DecidableEq

namespace Modifiers

/-- The empty set. -/
def empty : Modifiers := {}

/-- The modifiers in either set. -/
def union (a b : Modifiers) : Modifiers where
  optional := a.optional || b.optional
  lookahead := a.lookahead || b.lookahead
  flat := a.flat || b.flat
  repeated := a.repeated || b.repeated
  repeatedOrNone := a.repeatedOrNone || b.repeatedOrNone

/-- The modifiers in the first set and not in the second. -/
def without (a b : Modifiers) : Modifiers where
  optional := a.optional && !b.optional
  lookahead := a.lookahead && !b.lookahead
  flat := a.flat && !b.flat
  repeated := a.repeated && !b.repeated
  repeatedOrNone := a.repeatedOrNone && !b.repeatedOrNone

/-- Whether the first set includes the second. -/
def contains (a b : Modifiers) : Bool := a.union b == a

/-- Whether the set is empty. -/
def isEmpty (a : Modifiers) : Bool := a == empty

/-- The modifiers with the names they are shown by. -/
def named (a : Modifiers) : List (Bool × String) :=
  [(a.optional, "maybe"), (a.lookahead, "test"), (a.flat, "flatten"), (a.repeated, "repeat"),
    (a.repeatedOrNone, "repeat_or_none")]

/-- The names of the modifiers in the set, between bars. -/
def text (a : Modifiers) : String :=
  "|".intercalate ((a.named.filter Prod.fst).map Prod.snd)

/-- The set as a number, one binary digit for each modifier, the first the least significant. -/
def bits (a : Modifiers) : Nat :=
  a.named.foldr (fun (present, _) rest ↦ present.toNat + 2 * rest) 0

/-- The set in dump notation. -/
def dump (a : Modifiers) : String := Dump.apply "Mods" [Dump.nat a.bits]

end Modifiers

/-! ## Actions, kinds and rules -/

/-- What an action does: finish with a reply, or have a symbol matched and go on. -/
inductive Program (N : Type) (input : Array UInt8) (U : Type) where
  | done (reply : Reply input U)
  | call (symbol : N) (state : State input U) (next : Reply input U → Program N input U)

/-- An action gets the state and the position at which its rule started to match. -/
abbrev Action (N U : Type) :=
  {input : Array UInt8} → State input U → Position → Program N input U

/-- An action that has no symbol matched. -/
abbrev DirectAction (U : Type) :=
  {input : Array UInt8} → State input U → Position → Reply input U

/-- A direct action as an action. -/
def DirectAction.toAction {N U : Type} (act : DirectAction U) : Action N U :=
  fun state start ↦ .done (act state start)

/-- What a rule matches, when its inner rules are of the type `R`. -/
inductive Kind (N U R : Type) where
  /-- Nothing; always succeeds. -/
  | nothing
  /-- The start of the input. -/
  | atStart
  /-- The end of the input. -/
  | atEnd
  /-- The start and the end of the input at once. -/
  | emptyInput
  /-- One byte. -/
  | byte (byte : UInt8)
  /-- One byte within bounds. -/
  | range (low high : UInt8)
  /-- A byte string. -/
  | literal (bytes : List UInt8)
  /-- An opening byte, a rule, a closing byte. -/
  | bounded (opener closer : UInt8) (inner : R)
  /-- The first of the rules that succeeds. -/
  | anyOf (rules : List R)
  /-- All the rules, one after the other. -/
  | allOf (rules : List R)
  /-- Another rule, matched as a rule of its own. -/
  | reference (rule : R)
  /-- The rule a symbol stands for. -/
  | symbol (symbol : N)
  /-- A leaf that is matched by an action. -/
  | leaf (action : Action N U)
  /-- A rule, and an action when it has succeeded. -/
  | closing (inner : R) (action : Action N U)

/-- A rule of a grammar. -/
structure Rule (N U : Type) where
  name : Option String := none
  modifiers : Modifiers := {}
  kind : Kind N U (Rule N U)

/-- A grammar: the rule of each symbol. -/
abbrev Grammar (N U : Type) := N → Rule N U

namespace Rule

variable {N U : Type}

/-! ## Building rules -/

def nothing : Rule N U := { kind := .nothing }

instance : Inhabited (Rule N U) := ⟨nothing⟩

def atStart : Rule N U := { kind := .atStart }
def atEnd : Rule N U := { kind := .atEnd }
def emptyInput : Rule N U := { kind := .emptyInput }
def byte (b : UInt8) : Rule N U := { kind := .byte b }
def range (low high : UInt8) : Rule N U := { kind := .range low high }
def literal (bytes : List UInt8) : Rule N U := { kind := .literal bytes }
def bounded (opener closer : UInt8) (inner : Rule N U) : Rule N U :=
  { kind := .bounded opener closer inner }
def anyOf (rules : List (Rule N U)) : Rule N U := { kind := .anyOf rules }
def allOf (rules : List (Rule N U)) : Rule N U := { kind := .allOf rules }
def reference (rule : Rule N U) : Rule N U := { kind := .reference rule }
def symbol (n : N) : Rule N U := { kind := .symbol n }
def leaf (action : Action N U) : Rule N U := { kind := .leaf action }
def closing (inner : Rule N U) (action : Action N U) : Rule N U := { kind := .closing inner action }

/-- The literal that spells a text. -/
def word (text : String) : Rule N U := literal (Utf8.encode text)

/-- A rule by another name. -/
def named (r : Rule N U) (name : String) : Rule N U := { r with name := some name }

/-- A rule with further modifiers. -/
def modified (r : Rule N U) (m : Modifiers) : Rule N U :=
  { r with modifiers := r.modifiers.union m }

def optional (r : Rule N U) : Rule N U := r.modified { optional := true }
def lookahead (r : Rule N U) : Rule N U := r.modified { lookahead := true }
def flat (r : Rule N U) : Rule N U := r.modified { flat := true }
def repeated (r : Rule N U) : Rule N U := r.modified { repeated := true }
def repeatedOrNone (r : Rule N U) : Rule N U := r.modified { repeatedOrNone := true }

/-! ## Labels

A rule is shown in traces by its name, or else by its kind, and its modifiers in parentheses.  A
reference shows the name of the rule it leads to and no more, so recursion does no harm. -/

/-- The label of a reference to a rule. -/
def referenceLabel (target : Rule N U) : String :=
  match target.name with
  | some name => "ref " ++ name
  | none => "ref"

/-- A label with the modifiers after it. -/
def withModifiers (m : Modifiers) (label : String) : String :=
  if m.isEmpty then label else label ++ " (" ++ m.text ++ ")"

mutual

/-- The label of a rule. -/
def label (g : Grammar N U) : Rule N U → String
  | ⟨some name, m, _⟩ => withModifiers m name
  | ⟨none, m, kind⟩ => withModifiers m (kindLabel g kind)

/-- The label of a kind. -/
def kindLabel (g : Grammar N U) : Kind N U (Rule N U) → String
  | .nothing => "nothing"
  | .atStart => "begin"
  | .atEnd => "end"
  | .emptyInput => "empty"
  | .byte b => Byte.quoted b
  | .range low high => Byte.quoted low ++ "..=" ++ Byte.quoted high
  | .literal bytes => Byte.quotedString bytes
  | .bounded opener closer _ => "bounded " ++ Byte.quoted opener ++ Byte.quoted closer
  | .anyOf rules => "any[" ++ Dump.nat rules.length ++ "]"
  | .allOf rules => "all[" ++ Dump.nat rules.length ++ "]"
  | .reference rule => referenceLabel rule
  | .symbol n => referenceLabel (g n)
  | .leaf _ => "func"
  | .closing inner _ => "close " ++ label g inner

end

end Rule
end DocGrammar
