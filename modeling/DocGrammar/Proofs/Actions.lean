import DocGrammar.Grammar.Rule

/-!
# The actions of a rule

What holds of a grammar often depends on its actions only: the engine's own part is the same for
all grammars.  So the theorems about the engine ask something of every action that occurs in a rule,
and this file says which those are.

`Rule.Uses` follows references and symbols to any depth, which is what matching does as long as no
action asks for a symbol; `Rule.Involves` follows the symbols that actions ask for as well.  Neither
is anything one could check by looking at a rule; `Rule.Every` stays within the rule, so for a
particular rule it unfolds to one statement for each action, and `Rule.Every.of_uses` and
`Rule.Every.of_involves` lead from the rules of the grammar to what the other two reach.
-/

set_option autoImplicit false

namespace DocGrammar

variable {N U : Type}

/-! ## Occurring -/

/-- The rules that matching a kind of rule leads to at once. -/
def Kind.inner (g : Grammar N U) : Kind N U (Rule N U) → List (Rule N U)
  | .bounded _ _ rule => [rule]
  | .anyOf rules => rules
  | .allOf rules => rules
  | .reference rule => [rule]
  | .symbol n => [g n]
  | .closing rule _ => [rule]
  | _ => []

/-- The action that a kind of rule runs itself. -/
def Kind.Runs (action : Action N U) : Kind N U (Rule N U) → Prop
  | .leaf action' => @action' = @action
  | .closing _ action' => @action' = @action
  | _ => False

/-- An action occurs in a rule, or in a rule it leads to through any number of references. -/
inductive Rule.Uses (g : Grammar N U) (action : Action N U) : Rule N U → Prop
  | here {r : Rule N U} (h : r.kind.Runs @action) : Uses g @action r
  | within {r rule : Rule N U} (hrule : rule ∈ r.kind.inner g) (h : Uses g @action rule) :
      Uses g @action r

/-! ## Being involved -/

/-- A program may ask for a symbol. -/
inductive Program.Asks {input : Array UInt8} (symbol : N) : Program N input U → Prop
  | now {s : State input U} {next : Reply input U → Program N input U} :
      Asks symbol (.call symbol s next)
  | later {other : N} {s : State input U} {next : Reply input U → Program N input U}
      (reply : Reply input U) (h : Asks symbol (next reply)) : Asks symbol (.call other s next)

/-- An action is involved in matching a rule: it occurs in the rule, or in a rule that this one
leads to, or in the rule of a symbol that an action involved may ask for. -/
inductive Rule.Involves (g : Grammar N U) (action : Action N U) : Rule N U → Prop
  | here {r : Rule N U} (h : r.kind.Runs @action) : Involves g @action r
  | within {r rule : Rule N U} (hrule : rule ∈ r.kind.inner g) (h : Involves g @action rule) :
      Involves g @action r
  | asked {r : Rule N U} {action' : Action N U} (hruns : r.kind.Runs @action')
      {input : Array UInt8} {s : State input U} {start : Position} {symbol : N}
      (hasks : (action' s start).Asks symbol) (h : Involves g @action (g symbol)) :
      Involves g @action r

namespace Rule

variable {g : Grammar N U} {action : Action N U}

/-- Neither a name nor modifiers change what is involved in matching a rule. -/
theorem Involves.of_kind_eq {r r' : Rule N U} (hkind : r'.kind = r.kind)
    (h : r.Involves g @action) : r'.Involves g @action := by
  cases h with
  | here hruns => exact .here (hkind ▸ hruns)
  | within hrule h => exact .within (hkind ▸ hrule) h
  | asked hruns hasks h => exact .asked (hkind ▸ hruns) hasks h

/-- What is involved in matching a reference is involved in matching the rule that it leads to. -/
theorem Involves.of_reference {r r' : Rule N U} (hkind : r'.kind = .reference r)
    (h : r'.Involves g @action) : r.Involves g @action := by
  cases h with
  | here hruns =>
    rw [hkind] at hruns
    exact hruns.elim
  | within hrule h =>
    rw [hkind] at hrule
    exact List.mem_singleton.1 hrule ▸ h
  | asked hruns _ _ =>
    rw [hkind] at hruns
    exact hruns.elim

end Rule

/-! ## Occurring within -/

mutual

/-- Every action that occurs within a rule has a property.  Symbols are not followed. -/
def Rule.Every (P : Action N U → Prop) : Rule N U → Prop
  | ⟨_, _, kind⟩ => Kind.Every P kind

/-- Every action that occurs within a kind has a property. -/
def Kind.Every (P : Action N U → Prop) : Kind N U (Rule N U) → Prop
  | .bounded _ _ rule => Rule.Every P rule
  | .anyOf rules => Rule.EveryIn P rules
  | .allOf rules => Rule.EveryIn P rules
  | .reference rule => Rule.Every P rule
  | .leaf action => P @action
  | .closing rule action => Rule.Every P rule ∧ P @action
  | _ => True

/-- Every action that occurs within one of several rules has a property. -/
def Rule.EveryIn (P : Action N U → Prop) : List (Rule N U) → Prop
  | [] => True
  | rule :: rest => Rule.Every P rule ∧ Rule.EveryIn P rest

end

section

variable {P Q : Action N U → Prop}

mutual

theorem Rule.Every.imp (hPQ : ∀ action : Action N U, P @action → Q @action) :
    ∀ {r : Rule N U}, r.Every P → r.Every Q
  | ⟨_, _, _⟩, h => Kind.Every.imp hPQ h

theorem Kind.Every.imp (hPQ : ∀ action : Action N U, P @action → Q @action) :
    ∀ {k : Kind N U (Rule N U)}, k.Every P → k.Every Q
  | .bounded _ _ _, h => Rule.Every.imp hPQ h
  | .anyOf _, h => Rule.EveryIn.imp hPQ h
  | .allOf _, h => Rule.EveryIn.imp hPQ h
  | .reference _, h => Rule.Every.imp hPQ h
  | .leaf _, h => hPQ _ h
  | .closing _ _, h => ⟨Rule.Every.imp hPQ h.1, hPQ _ h.2⟩
  | .nothing, _ => trivial
  | .atStart, _ => trivial
  | .atEnd, _ => trivial
  | .emptyInput, _ => trivial
  | .byte _, _ => trivial
  | .range _ _, _ => trivial
  | .literal _, _ => trivial
  | .symbol _, _ => trivial

theorem Rule.EveryIn.imp (hPQ : ∀ action : Action N U, P @action → Q @action) :
    ∀ {rules : List (Rule N U)}, Rule.EveryIn P rules → Rule.EveryIn Q rules
  | [], _ => trivial
  | _ :: _, h => ⟨Rule.Every.imp hPQ h.1, Rule.EveryIn.imp hPQ h.2⟩

end

end

namespace Rule

variable {P : Action N U → Prop} {g : Grammar N U}

section Builders

variable (r : Rule N U) (rules : List (Rule N U)) (action : Action N U)

@[simp] theorem every_byte (b : UInt8) : (byte b : Rule N U).Every P := trivial
@[simp] theorem every_range (low high : UInt8) : (range low high : Rule N U).Every P := trivial
@[simp] theorem every_literal (bytes : List UInt8) : (literal bytes : Rule N U).Every P := trivial
@[simp] theorem every_word (text : String) : (word text : Rule N U).Every P := trivial
@[simp] theorem every_symbol (n : N) : (symbol n : Rule N U).Every P := trivial
@[simp] theorem every_leaf : (leaf action).Every P ↔ P @action := Iff.rfl
@[simp] theorem every_anyOf : (anyOf rules).Every P ↔ EveryIn P rules := Iff.rfl
@[simp] theorem every_allOf : (allOf rules).Every P ↔ EveryIn P rules := Iff.rfl
@[simp] theorem every_closing : (closing r action).Every P ↔ r.Every P ∧ P @action := Iff.rfl

@[simp] theorem every_bounded (opener closer : UInt8) :
    (bounded opener closer r).Every P ↔ r.Every P :=
  Iff.rfl

/-- Neither a name nor modifiers change what occurs within a rule. -/
theorem every_of_kind_eq {r r' : Rule N U} (h : r'.kind = r.kind) : r'.Every P ↔ r.Every P := by
  obtain ⟨name, m, kind⟩ := r
  obtain ⟨name', m', kind'⟩ := r'
  cases h
  exact Iff.rfl

@[simp] theorem every_named (name : String) : (r.named name).Every P ↔ r.Every P :=
  every_of_kind_eq rfl

@[simp] theorem every_optional : r.optional.Every P ↔ r.Every P := every_of_kind_eq rfl
@[simp] theorem every_lookahead : r.lookahead.Every P ↔ r.Every P := every_of_kind_eq rfl
@[simp] theorem every_flat : r.flat.Every P ↔ r.Every P := every_of_kind_eq rfl
@[simp] theorem every_repeated : r.repeated.Every P ↔ r.Every P := every_of_kind_eq rfl
@[simp] theorem every_repeatedOrNone : r.repeatedOrNone.Every P ↔ r.Every P := every_of_kind_eq rfl

@[simp] theorem everyIn_nil : EveryIn P ([] : List (Rule N U)) := trivial

@[simp] theorem everyIn_cons : EveryIn P (r :: rules) ↔ r.Every P ∧ EveryIn P rules := Iff.rfl

end Builders

theorem everyIn_iff {rules : List (Rule N U)} : EveryIn P rules ↔ ∀ r ∈ rules, r.Every P := by
  induction rules with
  | nil => simp [EveryIn]
  | cons rule rest ih => simp [EveryIn, ih]

theorem Every.of_runs {r : Rule N U} (h : r.Every P) {action : Action N U}
    (hruns : r.kind.Runs @action) : P @action := by
  obtain ⟨name, m, kind⟩ := r
  cases kind with
  | leaf action' =>
    cases hruns
    exact h
  | closing rule action' =>
    cases hruns
    exact h.2
  | _ => exact hruns.elim

theorem Every.of_mem_inner {r : Rule N U} (h : r.Every P) (hg : ∀ n, (g n).Every P)
    {rule : Rule N U} (hrule : rule ∈ r.kind.inner g) : rule.Every P := by
  obtain ⟨name, m, kind⟩ := r
  cases kind with
  | bounded opener closer inner => exact List.mem_singleton.1 hrule ▸ h
  | anyOf rules => exact everyIn_iff.1 h rule hrule
  | allOf rules => exact everyIn_iff.1 h rule hrule
  | reference inner => exact List.mem_singleton.1 hrule ▸ h
  | symbol n => exact List.mem_singleton.1 hrule ▸ hg n
  | closing inner action => exact List.mem_singleton.1 hrule ▸ h.1
  | _ => exact absurd hrule List.not_mem_nil

/-- What holds of the actions within a rule and within the rules of the grammar holds of every
action the rule uses. -/
theorem Every.of_uses (hg : ∀ n, (g n).Every P) {r : Rule N U} (h : r.Every P)
    {action : Action N U} (huses : r.Uses g @action) : P @action := by
  induction huses with
  | here hruns => exact h.of_runs hruns
  | within hrule _ ih => exact ih (h.of_mem_inner hg hrule)

/-- What holds of the actions within a rule and within the rules of the grammar holds of every
action that is involved. -/
theorem Every.of_involves (hg : ∀ n, (g n).Every P) {r : Rule N U} (h : r.Every P)
    {action : Action N U} (hinvolves : r.Involves g @action) : P @action := by
  induction hinvolves with
  | here hruns => exact h.of_runs hruns
  | within hrule _ ih => exact ih (h.of_mem_inner hg hrule)
  | asked _ _ _ ih => exact ih (hg _)

end Rule
end DocGrammar
