import DocGrammar.Grammar.Rule
import DocGrammar.Number.Notation

/-!
# Values, rules and states in dump notation

What developers see of the engine: results with their constructors, rules with everything inside
them, and the state of a parse in one line.  A reference inside a rule is shown by its label only,
so that the dump of a recursive rule is finite.
-/

set_option autoImplicit false

namespace DocGrammar

/-- A value in dump notation. -/
def Value.dump : Value → String
  | null => "Null"
  | bool value => Dump.apply "Bool" [Dump.bool value]
  | char b => Dump.apply "Char" [Dump.nat b.toNat]
  | signed value => Dump.apply "Signed" [Dump.int value.toInt]
  | unsigned value => Dump.apply "Unsigned" [Dump.nat value.toNat]
  | float value => Dump.apply "Float" [String.ofList value.toShortest]
  | pointer handle => Dump.apply "Pointer" [Dump.nat handle]
  | slice bytes => Dump.apply "Slice" [Dump.bytes bytes]
  | user tag data =>
    Dump.record "User" [Dump.field "tag" (Dump.nat tag.toNat), Dump.field "data" (Dump.nat data)]

/-- A reason in dump notation. -/
def Reason.dump : Reason → String
  | expectedByte b => Dump.apply "ExpectedChar" [Dump.nat b.toNat]
  | expectedRange low high =>
    Dump.apply "ExpectedRange" [Dump.nat low.toNat, Dump.nat high.toNat]
  | expectedLiteral bytes => Dump.apply "ExpectedLiteral" [Dump.bytes bytes]
  | expectedStart => "ExpectedBegin"
  | expectedEnd => "ExpectedEnd"
  | expectedEmpty => "ExpectedEmpty"
  | expectedOpener b => Dump.apply "ExpectedOpener" [Dump.nat b.toNat]
  | expectedCloser b => Dump.apply "ExpectedCloser" [Dump.nat b.toNat]
  | noAlternative name => Dump.apply "NoAlternative" [Dump.option (name.map Dump.string)]
  | message text => Dump.apply "Message" [Dump.string text]

/-- A failure in dump notation. -/
def Failure.dump (f : Failure) : String :=
  Dump.record "Failure"
    [Dump.field "at" (Dump.nat f.offset),
      Dump.field "found" (Dump.option (f.found.map fun b ↦ Dump.nat b.toNat)),
      Dump.field "reason" f.reason.dump]

namespace Rule

variable {N U : Type}

/-- The fields that a rule's dump begins with. -/
def headFields (name : Option String) (m : Modifiers) : List String :=
  (name.map fun n ↦ Dump.field "name" (Dump.string n)).toList ++
    (if m.isEmpty then [] else [Dump.field "mods" m.dump])

mutual

/-- A rule in dump notation. -/
def dump (g : Grammar N U) : Rule N U → String
  | ⟨name, m, kind⟩ =>
    Dump.record "Rule" (headFields name m ++ kindFields g (label g ⟨name, m, kind⟩) kind)

/-- The fields of a rule's dump that tell its kind. -/
def kindFields (g : Grammar N U) (label : String) : Kind N U (Rule N U) → List String
  | .bounded opener closer inner =>
    [Dump.field "open" (Dump.byteChar opener), Dump.field "close" (Dump.byteChar closer),
      Dump.field "inner" (dump g inner)]
  | .anyOf rules => [Dump.field "any" (Dump.list (dumpAll g rules))]
  | .allOf rules => [Dump.field "all" (Dump.list (dumpAll g rules))]
  | .closing inner _ => [Dump.field "close" (dump g inner)]
  | _ => [Dump.field "kind" (Dump.string label)]

/-- Rules in dump notation. -/
def dumpAll (g : Grammar N U) : List (Rule N U) → List String
  | [] => []
  | rule :: rest => dump g rule :: dumpAll g rest

end

end Rule

/-- A state in dump notation, given its user data in that notation. -/
def State.dump {input : Array UInt8} {U : Type} (s : State input U) (user : String) : String :=
  Dump.record "ParseState"
    [Dump.field "at" (Dump.nat s.cursor),
      Dump.field "len" (Dump.nat input.size),
      Dump.field "results" (Dump.list (s.results.map Value.dump)),
      Dump.field "error" (Dump.option (s.error.map Failure.dump)),
      Dump.field "user" user,
      ".."]

end DocGrammar
