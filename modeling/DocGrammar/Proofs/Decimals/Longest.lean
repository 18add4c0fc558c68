import DocGrammar.Proofs.Direct.Tokens
import Mathlib.Computability.Language
import Mathlib.Data.List.TakeWhile

/-!
# Longest matches

A scanner takes runs as long as they get, and never gives back a byte to make what follows match.
So what it takes need not be the longest string of a language that the bytes begin with, even if
each of its parts takes the longest string of its own language.

It is if no byte of a part is one that what follows could begin with.  `MadeOf` and `BeginsWithout`
say so with a class of bytes; then the longest string of a product is made of the longest strings of
its factors (`Longest.mul`), and if there is none of a factor, there is none of the product
(`Absent.mul`).

`Scanner.Munches` says that a scanner finds the longest string of a language.  There is a lemma for
each combinator that numbers are made of.
-/

set_option autoImplicit false

namespace DocGrammar

/-! ## Strings at the beginning -/

/-- The longest string of a language that the bytes begin with. -/
structure Longest (L : Language UInt8) (bytes token : List UInt8) : Prop where
  mem : token ∈ L
  isPrefix : token <+: bytes
  le : ∀ other ∈ L, other <+: bytes → other.length ≤ token.length

/-- The bytes begin with no string of a language. -/
def Absent (L : Language UInt8) (bytes : List UInt8) : Prop := ∀ token ∈ L, ¬ token <+: bytes

/-- The strings of the language have bytes of the class only. -/
def MadeOf (accepts : UInt8 → Bool) (L : Language UInt8) : Prop :=
  ∀ token ∈ L, ∀ b ∈ token, accepts b = true

/-- No string of the language begins with a byte of the class. -/
def BeginsWithout (accepts : UInt8 → Bool) (L : Language UInt8) : Prop :=
  ∀ b more, b :: more ∈ L → accepts b = false

section

variable {L M : Language UInt8} {accepts : UInt8 → Bool} {bytes token token' rest : List UInt8}

/-- There is only one longest string. -/
theorem Longest.unique (h : Longest L bytes token) (h' : Longest L bytes token') :
    token = token' :=
  (List.prefix_of_prefix_length_le h.isPrefix h'.isPrefix
    (h'.le token h.mem h.isPrefix)).eq_of_length
    (Nat.le_antisymm (h'.le token h.mem h.isPrefix) (h.le token' h'.mem h'.isPrefix))

theorem Absent.not_longest (h : Absent L bytes) : ¬ Longest L bytes token :=
  fun h' ↦ h token h'.mem h'.isPrefix

/-- What the bytes begin with is the longest string and something behind it, or the longest string
has a byte more where the second part would begin. -/
theorem Longest.split (h : Longest L (token ++ rest) token) {first second : List UInt8}
    (hfirst : first ∈ L) (hfront : first ++ second <+: token ++ rest) :
    first = token ∧ second <+: rest ∨
      ∃ b more, token = first ++ b :: more ∧ ∀ c ∈ second.head?, c = b := by
  have hboth : first <+: token ++ rest := (List.prefix_append first second).trans hfront
  obtain ⟨more, rfl⟩ := List.prefix_of_prefix_length_le hboth h.isPrefix (h.le first hfirst hboth)
  rcases more with _ | ⟨b, more⟩
  · rw [List.append_nil] at hfront ⊢
    exact .inl ⟨rfl, (List.prefix_append_right_inj first).1 hfront⟩
  · refine .inr ⟨b, more, rfl, fun c hc ↦ ?_⟩
    obtain ⟨tail, rfl⟩ := List.head?_eq_some_iff.1 hc
    rw [List.append_assoc, List.prefix_append_right_inj, List.cons_append,
      List.cons_prefix_cons] at hfront
    exact hfront.1

/-- **The longest string of a product** is made of the longest strings of its factors, -/
theorem Longest.mul (hL : MadeOf accepts L) (hM : BeginsWithout accepts M)
    (h : Longest L (token ++ rest) token) (h' : Longest M rest token') :
    Longest (L * M) (token ++ rest) (token ++ token') := by
  refine ⟨Language.append_mem_mul h.mem h'.mem,
    (List.prefix_append_right_inj token).2 h'.isPrefix, ?_⟩
  rintro _ ⟨first, hfirst, second, hsecond, rfl⟩ hfront
  dsimp only at hfront ⊢
  rcases h.split hfirst hfront with ⟨rfl, hrest⟩ | ⟨b, more, rfl, hhead⟩
  · have := h'.le second hsecond hrest
    simp only [List.length_append]
    omega
  · rcases second with _ | ⟨c, second⟩
    · simp only [List.append_nil, List.length_append]
      omega
    · obtain rfl := hhead c rfl
      exact absurd ((hM c second hsecond).symm.trans (hL _ h.mem c (by simp))) nofun

/-- and there is none if there is none of the second factor, -/
theorem Absent.mul (hL : MadeOf accepts L) (hM : BeginsWithout accepts M)
    (h : Longest L (token ++ rest) token) (h' : Absent M rest) :
    Absent (L * M) (token ++ rest) := by
  rintro _ ⟨first, hfirst, second, hsecond, rfl⟩ hfront
  dsimp only at hfront
  rcases h.split hfirst hfront with ⟨rfl, hrest⟩ | ⟨b, more, rfl, hhead⟩
  · exact h' second hsecond hrest
  · rcases second with _ | ⟨c, second⟩
    · exact h' [] hsecond List.nil_prefix
    · obtain rfl := hhead c rfl
      exact absurd ((hM c second hsecond).symm.trans (hL _ h.mem c (by simp))) nofun

/-- or of the first. -/
theorem Absent.mul_left (h : Absent L bytes) : Absent (L * M) bytes := by
  rintro _ ⟨first, hfirst, second, -, rfl⟩ hfront
  exact h first hfirst ((List.prefix_append first second).trans hfront)

theorem longest_one (bytes : List UInt8) : Longest 1 bytes [] :=
  ⟨Language.nil_mem_one, List.nil_prefix, fun _ h _ ↦ by rw [(Language.mem_one _).1 h]⟩

/-- Leaving a string out is an alternative that is shorter than all others. -/
theorem Longest.maybe (h : Longest L bytes token) : Longest (L + 1) bytes token := by
  refine ⟨(Language.mem_add _ _ _).2 (.inl h.mem), h.isPrefix, fun other hother hfront ↦ ?_⟩
  rcases (Language.mem_add _ _ _).1 hother with hother | hother
  · exact h.le other hother hfront
  · rw [(Language.mem_one _).1 hother]
    exact Nat.zero_le _

theorem Absent.maybe (h : Absent L bytes) : Longest (L + 1) bytes [] := by
  refine ⟨(Language.mem_add _ _ _).2 (.inr Language.nil_mem_one), List.nil_prefix, ?_⟩
  intro other hother hfront
  rcases (Language.mem_add _ _ _).1 hother with hother | hother
  · exact absurd hfront (h other hother)
  · rw [(Language.mem_one _).1 hother]

/-- A string of another language that the bytes do not begin with does not matter. -/
theorem Longest.add (h : Longest L bytes token) (h' : Absent M bytes) :
    Longest (L + M) bytes token := by
  refine ⟨(Language.mem_add _ _ _).2 (.inl h.mem), h.isPrefix, fun other hother hfront ↦ ?_⟩
  rcases (Language.mem_add _ _ _).1 hother with hother | hother
  · exact h.le other hother hfront
  · exact absurd hfront (h' other hother)

theorem Absent.add (h : Absent L bytes) (h' : Absent M bytes) : Absent (L + M) bytes :=
  fun token htoken ↦ ((Language.mem_add _ _ _).1 htoken).elim (h token) (h' token)

/-! ## Classes of bytes as languages -/

/-- The strings of one byte of a class. -/
def single (accepts : UInt8 → Bool) : Language UInt8 :=
  {token | ∃ b, accepts b = true ∧ token = [b]}

/-- The strings of bytes of a class, one byte at least. -/
def many (accepts : UInt8 → Bool) : Language UInt8 :=
  single accepts * KStar.kstar (single accepts)

theorem mem_kstar_single {accepts : UInt8 → Bool} :
    token ∈ KStar.kstar (single accepts) ↔ ∀ b ∈ token, accepts b = true := by
  rw [Language.mem_kstar]
  constructor
  · rintro ⟨parts, rfl, hparts⟩ b hb
    obtain ⟨part, hpart, hb⟩ := List.mem_flatten.1 hb
    obtain ⟨c, hc, rfl⟩ := hparts part hpart
    rwa [List.mem_singleton.1 hb]
  · intro h
    refine ⟨token.map fun b ↦ [b], ?_, fun part hpart ↦ ?_⟩
    · rw [← List.flatMap_def, List.flatMap_singleton']
    · obtain ⟨b, hb, rfl⟩ := List.mem_map.1 hpart
      exact ⟨b, h b hb, rfl⟩

theorem mem_many {accepts : UInt8 → Bool} :
    token ∈ many accepts ↔ token ≠ [] ∧ ∀ b ∈ token, accepts b = true := by
  rw [many, Language.mem_mul]
  constructor
  · rintro ⟨_, ⟨b, hb, rfl⟩, more, hmore, rfl⟩
    refine ⟨nofun, fun c hc ↦ ?_⟩
    rcases List.mem_cons.1 hc with rfl | hc
    · exact hb
    · exact mem_kstar_single.1 hmore c hc
  · rintro ⟨hne, h⟩
    obtain ⟨b, more, rfl⟩ := List.exists_cons_of_ne_nil hne
    exact ⟨[b], ⟨b, h b List.mem_cons_self, rfl⟩, more,
      mem_kstar_single.2 fun c hc ↦ h c (List.mem_cons_of_mem b hc), rfl⟩

/-! ### Their bytes -/

theorem single_madeOf (accepts : UInt8 → Bool) : MadeOf accepts (single accepts) := by
  rintro _ ⟨c, hc, rfl⟩ b hb
  rwa [List.mem_singleton.1 hb]

theorem many_madeOf (accepts : UInt8 → Bool) : MadeOf accepts (many accepts) :=
  fun _ htoken ↦ (mem_many.1 htoken).2

theorem MadeOf.maybe (h : MadeOf accepts L) : MadeOf accepts (L + 1) := by
  intro token htoken
  rcases (Language.mem_add _ _ _).1 htoken with htoken | hnil
  · exact h token htoken
  · rw [(Language.mem_one _).1 hnil]
    nofun

/-- A string begins with one of its bytes. -/
theorem MadeOf.beginsWithout {accepts' : UInt8 → Bool} (h : MadeOf accepts' L)
    (hother : ∀ b, accepts' b = true → accepts b = false) : BeginsWithout accepts L :=
  fun b _ hmem ↦ hother b (h _ hmem b List.mem_cons_self)

theorem BeginsWithout.maybe (h : BeginsWithout accepts L) : BeginsWithout accepts (L + 1) := by
  intro b more hmem
  rcases (Language.mem_add _ _ _).1 hmem with hmem | hnil
  · exact h b more hmem
  · cases (Language.mem_one _).1 hnil

theorem BeginsWithout.add (h : BeginsWithout accepts L) (h' : BeginsWithout accepts M) :
    BeginsWithout accepts (L + M) :=
  fun b more hmem ↦ ((Language.mem_add _ _ _).1 hmem).elim (h b more) (h' b more)

/-- A string of a product begins as its first factor does, or as its second one if the first may be
empty. -/
theorem BeginsWithout.mul (h : BeginsWithout accepts L)
    (h' : [] ∈ L → BeginsWithout accepts M) : BeginsWithout accepts (L * M) := by
  rintro b more ⟨first, hfirst, second, hsecond, heq⟩
  rcases first with _ | ⟨c, first⟩
  · exact h' hfirst b more (heq ▸ hsecond)
  · cases heq
    exact h b first hfirst

/-- Where a product tells its factors apart, the second one begins behind the bytes of the first. -/
theorem head?_dropWhile_of_mul (hL : MadeOf accepts L) (hM : BeginsWithout accepts M)
    (hnil : [] ∉ M) (h : token ∈ L * M) (hfront : token <+: bytes) :
    ∃ b more, b :: more ∈ M ∧ (bytes.dropWhile accepts).head? = some b := by
  obtain ⟨first, hfirst, second, hsecond, rfl⟩ := h
  obtain ⟨rest, rfl⟩ := hfront
  rcases second with _ | ⟨b, more⟩
  · exact absurd hsecond hnil
  · refine ⟨b, more, hsecond, ?_⟩
    rw [List.append_assoc, List.dropWhile_append_of_pos (hL first hfirst), List.cons_append,
      List.dropWhile_cons_of_neg (by simp [hM b more hsecond]), List.head?_cons]

theorem nil_notMem_single : [] ∉ single accepts := by
  rintro ⟨b, -, heq⟩
  cases heq

theorem nil_notMem_many : [] ∉ many accepts := fun h ↦ (mem_many.1 h).1 rfl

theorem nil_notMem_mul (h : [] ∉ L ∨ [] ∉ M) : [] ∉ L * M := by
  rintro ⟨first, hfirst, second, hsecond, heq⟩
  obtain ⟨rfl, rfl⟩ := List.append_eq_nil_iff.1 heq
  exact h.elim (· hfirst) (· hsecond)

end

/-! ## Scanners -/

/-- A scan is of the longest string of a language that the bytes begin with.  If something is left
out, the empty string is the longest. -/
def Scan.Munches (L : Language UInt8) (bytes : List UInt8) : Scan → Prop
  | .ok token rest _ => bytes = token ++ rest ∧ Longest L bytes token
  | .fail => Absent L bytes
  | .noMatch => Longest L bytes []

namespace Scanner

/-- A scanner takes the longest string of a language, and fails if there is none. -/
def Munches (p : Scanner) (L : Language UInt8) : Prop := ∀ bytes, (p bytes).Munches L bytes

/-- Scanners one after the other take the longest string of a language. -/
def MunchInOrder (ps : List Scanner) (L : Language UInt8) : Prop :=
  ∀ matched, (inOrder ps matched).Munches L

variable {L M : Language UInt8} {p : Scanner} {ps : List Scanner} {accepts : UInt8 → Bool}

theorem byte_munches (accepts : UInt8 → Bool) : (byte accepts).Munches (single accepts) := by
  intro bytes
  have habsent (h : ∀ b ∈ bytes.head?, accepts b = false) : Absent (single accepts) bytes := by
    rintro _ ⟨b, hb, rfl⟩ ⟨rest, rfl⟩
    exact absurd ((h b rfl).symm.trans hb) nofun
  rcases bytes with _ | ⟨b, rest⟩
  · exact habsent nofun
  rw [byte]
  by_cases hb : accepts b = true
  · rw [if_pos hb]
    refine ⟨rfl, ⟨b, hb, rfl⟩, List.prefix_append [b] rest, ?_⟩
    rintro _ ⟨c, -, rfl⟩ -
    exact Nat.le_refl _
  · rw [if_neg hb]
    refine habsent fun c hc ↦ ?_
    cases hc
    exact Bool.eq_false_iff.2 hb

theorem run_munches (accepts : UInt8 → Bool) : (run accepts).Munches (many accepts) := by
  intro bytes
  -- a run at the beginning is part of the longest one
  have hle (token : List UInt8) (h : token ∈ many accepts) (hfront : token <+: bytes) :
      token.length ≤ (bytes.takeWhile accepts).length := by
    obtain ⟨rest, rfl⟩ := hfront
    rw [List.takeWhile_append_of_pos (mem_many.1 h).2, List.length_append]
    exact Nat.le_add_right _ _
  rw [run]
  by_cases hrun : bytes.takeWhile accepts = []
  · rw [if_pos hrun]
    intro token htoken hfront
    have hshort := hle token htoken hfront
    rw [hrun] at hshort
    exact (mem_many.1 htoken).1 (List.length_eq_zero_iff.1 (Nat.le_zero.1 hshort))
  · rw [if_neg hrun]
    exact ⟨List.takeWhile_append_dropWhile.symm,
      mem_many.2 ⟨hrun, fun b hb ↦ List.mem_takeWhile_imp hb⟩, List.takeWhile_prefix accepts, hle⟩

theorem Munches.optional (h : p.Munches L) : (Scanner.optional p).Munches (L + 1) := by
  intro bytes
  have hscan := h bytes
  rw [Scanner.optional]
  generalize p bytes = scan at hscan ⊢
  cases scan with
  | ok token rest values => exact ⟨hscan.1, hscan.2.maybe⟩
  | fail => exact Absent.maybe hscan
  | noMatch => exact Longest.maybe hscan

/-! ### Sequences -/

/-- A sequence in which something has matched is not left out. -/
theorem inOrder_true_ne_noMatch (ps : List Scanner) (bytes : List UInt8) :
    inOrder ps true bytes ≠ .noMatch := by
  induction ps generalizing bytes with
  | nil => exact Scan.noConfusion
  | cons p ps ih =>
    rw [inOrder]
    cases p bytes with
    | ok token rest values =>
      dsimp only
      have hne := ih rest
      cases hrest : inOrder ps true rest with
      | noMatch => exact absurd hrest hne
      | ok token' rest' values' => exact Scan.noConfusion
      | fail => exact Scan.noConfusion
    | fail => exact Scan.noConfusion
    | noMatch => exact ih bytes

theorem munchInOrder_nil : MunchInOrder [] 1 := by
  intro matched bytes
  rw [inOrder]
  cases matched with
  | false => exact longest_one bytes
  | true => exact ⟨rfl, longest_one bytes⟩

theorem MunchInOrder.cons (hp : p.Munches L) (hL : MadeOf accepts L)
    (hM : BeginsWithout accepts M) (hps : MunchInOrder ps M) : MunchInOrder (p :: ps) (L * M) := by
  intro matched bytes
  have hscan := hp bytes
  rw [inOrder]
  cases hfirst : p bytes with
  | ok token rest values =>
    rw [hfirst] at hscan
    obtain ⟨rfl, hlongest⟩ := hscan
    have hmore := hps true rest
    have hne := inOrder_true_ne_noMatch ps rest
    dsimp only
    generalize inOrder ps true rest = scan at hmore hne ⊢
    cases scan with
    | ok token' rest' values' =>
      obtain ⟨rfl, hlongest'⟩ := hmore
      exact ⟨(List.append_assoc _ _ _).symm, hlongest.mul hL hM hlongest'⟩
    | fail => exact Absent.mul hL hM hlongest hmore
    | noMatch => exact absurd rfl hne
  | fail =>
    rw [hfirst] at hscan
    exact Absent.mul_left hscan
  | noMatch =>
    rw [hfirst] at hscan
    have hnothing : Longest L ([] ++ bytes) [] := hscan
    have hmore := hps matched bytes
    dsimp only
    generalize inOrder ps matched bytes = scan at hmore ⊢
    cases scan with
    | ok token rest values =>
      obtain ⟨rfl, hlongest⟩ := hmore
      exact ⟨rfl, hnothing.mul hL hM hlongest⟩
    | fail => exact Absent.mul hL hM hnothing hmore
    | noMatch => exact hnothing.mul hL hM hmore

/-- The last of a sequence. -/
theorem MunchInOrder.single (hp : p.Munches L) : MunchInOrder [p] L := by
  have hone : BeginsWithout (fun _ ↦ true) 1 := fun _ _ h ↦ by cases (Language.mem_one _).1 h
  have h : MunchInOrder [p] (L * 1) := munchInOrder_nil.cons hp (fun _ _ _ _ ↦ rfl) hone
  rwa [mul_one] at h

/-! ### Choices -/

theorem Munches.only (h : p.Munches L) (hnil : [] ∉ L) : (firstOf [p]).Munches L := by
  intro bytes
  have hscan := h bytes
  rw [firstOf]
  generalize p bytes = scan at hscan ⊢
  cases scan with
  | ok token rest values => exact hscan
  | fail => exact hscan
  | noMatch => exact absurd (Longest.mem hscan) hnil

/-- A choice, where the bytes cannot begin with a string of both languages. -/
theorem Munches.or (hp : p.Munches L) (hps : (firstOf ps).Munches M) (hnil : [] ∉ L)
    (hdisjoint : ∀ bytes, Absent L bytes ∨ Absent M bytes) :
    (firstOf (p :: ps)).Munches (L + M) := by
  intro bytes
  have hscan := hp bytes
  have hmore := hps bytes
  rw [firstOf]
  cases hfirst : p bytes with
  | ok token rest values =>
    rw [hfirst] at hscan
    obtain ⟨heq, hlongest⟩ := hscan
    exact ⟨heq, hlongest.add ((hdisjoint bytes).resolve_left fun h ↦ h.not_longest hlongest)⟩
  | fail =>
    rw [hfirst] at hscan
    dsimp only
    rw [add_comm]
    generalize firstOf ps bytes = scan at hmore ⊢
    cases scan with
    | ok token rest values => exact ⟨hmore.1, hmore.2.add hscan⟩
    | fail => exact Absent.add hmore hscan
    | noMatch => exact Longest.add hmore hscan
  | noMatch =>
    rw [hfirst] at hscan
    exact absurd (Longest.mem hscan) hnil

end Scanner

end DocGrammar
