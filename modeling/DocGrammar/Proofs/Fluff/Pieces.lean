import DocGrammar.Doc.Fluff
import Mathlib.Algebra.Ring.Int.Defs
import Mathlib.Logic.Relation
import Mathlib.Order.Bounds.Defs

/-!
# What fluff is made of

Fluff is one piece after the other: a separator, a comment that ends with its line, or a comment
between marks.  This file says what a piece is without saying how it is found.

Comments between marks nest, so where one ends is a matter of counting.  The bytes behind its
opening mark are read as marks from left to right, two bytes that are a mark being taken together
(`Fluff.marks`); then the comment ends where as many comments have been closed as opened
(`IsComment`).  The count is an integer here, and nothing in its definition keeps it from falling
below zero.  `Proofs.Fluff.Longest` shows that it does not.

A byte string begins with one piece at most (`Piece.unique`), so the pieces of fluff are determined
by the bytes, and only how many of them are taken is not.
-/

set_option autoImplicit false

namespace DocGrammar
namespace Fluff

/-! ## Marks -/

/-- What a comment between marks consists of. -/
inductive Mark where
  | opener
  | closer
  /-- A byte that belongs to no mark. -/
  | plain (b : UInt8)
  deriving DecidableEq

/-- The bytes of a mark. -/
def Mark.bytes : Mark → List UInt8
  | opener => [0x2F, 0x2A]
  | closer => [0x2A, 0x2F]
  | plain b => [b]

/-- How many comments more are open behind a mark. -/
def Mark.change : Mark → Int
  | opener => 1
  | closer => -1
  | plain _ => 0

/-- Bytes as marks, from left to right and without overlap. -/
def marks : List UInt8 → List Mark
  | [] => []
  | [b] => [.plain b]
  | b :: c :: rest =>
    if b = 0x2F ∧ c = 0x2A then .opener :: marks rest
    else if b = 0x2A ∧ c = 0x2F then .closer :: marks rest
    else .plain b :: marks (c :: rest)

/-- How many comments are open behind marks. -/
def nesting (ms : List Mark) : Int := (ms.map Mark.change).sum

/-- From the first mark on, there has always been a comment open. -/
def StaysOpen (ms : List Mark) : Prop := ∀ taken, taken <+: ms → taken ≠ [] → 0 < nesting taken

/-- The marks of a comment: the last of them closes what the first has opened. -/
structure IsComment (ms : List Mark) : Prop where
  head_eq : ms.head? = some .opener
  nesting_eq : nesting ms = 0
  /-- No comment is closed too often, nor is this one closed before its end. -/
  nesting_pos : ∀ taken, taken <+: ms → taken ≠ [] → taken ≠ ms → 0 < nesting taken

theorem nesting_append (ms ms' : List Mark) : nesting (ms ++ ms') = nesting ms + nesting ms' := by
  rw [nesting, List.map_append, List.sum_append, nesting, nesting]

theorem nesting_singleton (m : Mark) : nesting [m] = m.change := List.sum_singleton

/-- A mark goes on an open comment, -/
theorem StaysOpen.append {ms : List Mark} (h : StaysOpen ms) {m : Mark}
    (hpos : 0 < nesting (ms ++ [m])) : StaysOpen (ms ++ [m]) := by
  intro taken htaken hne
  rcases List.prefix_concat_iff.1 htaken with rfl | htaken
  · exact hpos
  · exact h taken htaken hne

/-- or closes it. -/
theorem StaysOpen.isComment {ms : List Mark} (h : StaysOpen ms)
    (hhead : ms.head? = some .opener) {m : Mark} (hzero : nesting (ms ++ [m]) = 0) :
    IsComment (ms ++ [m]) where
  head_eq := by rw [List.head?_append, hhead, Option.some_or]
  nesting_eq := hzero
  nesting_pos := by
    intro taken htaken hne hall
    rcases List.prefix_concat_iff.1 htaken with rfl | htaken
    · exact absurd rfl hall
    · exact h taken htaken hne

theorem IsComment.ne_nil {ms : List Mark} (h : IsComment ms) : ms ≠ [] := by
  rintro rfl
  cases h.head_eq

/-- A comment has no comment in front of its end. -/
theorem IsComment.eq_of_prefix {ms ms' : List Mark} (h : IsComment ms) (h' : IsComment ms')
    (hle : ms <+: ms') : ms = ms' := by
  by_cases hall : ms = ms'
  · exact hall
  · have hpos := h'.nesting_pos ms hle h.ne_nil hall
    rw [h.nesting_eq] at hpos
    exact absurd hpos (Int.lt_irrefl 0)

/-- A comment that stays open has no end. -/
theorem StaysOpen.not_isComment {ms ms' : List Mark} (h : StaysOpen ms) (hle : ms' <+: ms) :
    ¬ IsComment ms' := by
  intro hcomment
  have hpos := h ms' hle hcomment.ne_nil
  rw [hcomment.nesting_eq] at hpos
  exact absurd hpos (Int.lt_irrefl 0)

theorem marks_opener (rest : List UInt8) :
    marks (0x2F :: 0x2A :: rest) = .opener :: marks rest := by
  rw [marks, if_pos ⟨rfl, rfl⟩]

theorem marks_closer (rest : List UInt8) :
    marks (0x2A :: 0x2F :: rest) = .closer :: marks rest := by
  rw [marks, if_neg (by decide), if_pos ⟨rfl, rfl⟩]

theorem marks_plain {b : UInt8} {rest : List UInt8}
    (hopener : ¬ (b = 0x2F ∧ rest.head? = some 0x2A))
    (hcloser : ¬ (b = 0x2A ∧ rest.head? = some 0x2F)) :
    marks (b :: rest) = .plain b :: marks rest := by
  cases rest with
  | nil => rfl
  | cons c rest =>
    simp only [List.head?_cons, Option.some.injEq] at hopener hcloser
    rw [marks, if_neg hopener, if_neg hcloser]

/-! ## Pieces -/

/-- The bytes begin with one piece of fluff, and behind it is the rest. -/
inductive Piece (bytes rest : List UInt8) : Prop
  | separator {b : UInt8} (hb : isSeparator b = true) (hbytes : bytes = b :: rest)
  /-- A comment up to a newline and with it, or up to the end of the input. -/
  | line {text : List UInt8} (hbytes : bytes = 0x2F :: 0x2F :: text)
      (hrest : rest = (text.dropWhile (· != 0x0A)).tail)
  /-- A comment between marks. -/
  | block {ms : List Mark} (hms : IsComment ms) (hbytes : bytes = ms.flatMap Mark.bytes ++ rest)
      (hmarks : marks bytes = ms ++ marks rest)

/-- The first so many bytes are fluff. -/
def IsFluff (bytes : List UInt8) (n : Nat) : Prop :=
  n ≤ bytes.length ∧ Relation.ReflTransGen Piece bytes (bytes.drop n)

/-- A slash that starts no comment. -/
def StraySlash (bytes : List UInt8) : Prop :=
  ∃ rest, bytes = 0x2F :: rest ∧ rest.head? ≠ some 0x2F ∧ rest.head? ≠ some 0x2A

/-- A comment between marks that has no end. -/
def Unclosed (bytes : List UInt8) : Prop :=
  (∃ rest, bytes = 0x2F :: 0x2A :: rest) ∧ StaysOpen (marks bytes)

theorem IsComment.flatMap_eq {ms : List Mark} (h : IsComment ms) :
    ∃ inner : List UInt8, ms.flatMap Mark.bytes = 0x2F :: 0x2A :: inner := by
  obtain ⟨rest, rfl⟩ := List.head?_eq_some_iff.1 h.head_eq
  exact ⟨rest.flatMap Mark.bytes, rfl⟩

/-- A piece that begins with a separator is no more than that. -/
theorem Piece.eq_of_separator {b : UInt8} {bytes rest : List UInt8} (hb : isSeparator b = true)
    (h : Piece (b :: bytes) rest) : rest = bytes := by
  have hne : b ≠ 0x2F := by
    rintro rfl
    cases hb
  cases h with
  | separator _ hbytes => exact (List.cons.inj hbytes).2.symm
  | line hbytes => exact absurd (List.cons.inj hbytes).1 hne
  | block hms hbytes =>
    obtain ⟨inner, hinner⟩ := hms.flatMap_eq
    rw [hinner] at hbytes
    exact absurd (List.cons.inj hbytes).1 hne

/-- A piece that begins with two slashes is a line. -/
theorem Piece.eq_of_line {text rest : List UInt8} (h : Piece (0x2F :: 0x2F :: text) rest) :
    rest = (text.dropWhile (· != 0x0A)).tail := by
  cases h with
  | separator hb hbytes =>
    obtain ⟨rfl, -⟩ := List.cons.inj hbytes
    cases hb
  | line hbytes hrest =>
    obtain rfl := (List.cons.inj (List.cons.inj hbytes).2).2
    exact hrest
  | block hms hbytes =>
    obtain ⟨inner, hinner⟩ := hms.flatMap_eq
    rw [hinner] at hbytes
    cases (List.cons.inj (List.cons.inj hbytes).2).1

/-- A piece that begins with an opening mark is a comment. -/
theorem Piece.exists_isComment {text rest : List UInt8} (h : Piece (0x2F :: 0x2A :: text) rest) :
    ∃ ms, IsComment ms ∧ 0x2F :: 0x2A :: text = ms.flatMap Mark.bytes ++ rest ∧
      marks (0x2F :: 0x2A :: text) = ms ++ marks rest := by
  cases h with
  | separator hb hbytes =>
    obtain ⟨rfl, -⟩ := List.cons.inj hbytes
    cases hb
  | line hbytes => cases (List.cons.inj (List.cons.inj hbytes).2).1
  | block hms hbytes hmarks => exact ⟨_, hms, hbytes, hmarks⟩

/-- A piece is a separator or begins with a slash. -/
theorem Piece.isSeparator_or_eq {b : UInt8} {bytes rest : List UInt8}
    (h : Piece (b :: bytes) rest) :
    isSeparator b = true ∨ b = 0x2F := by
  cases h with
  | separator hb hbytes => exact .inl ((List.cons.inj hbytes).1 ▸ hb)
  | line hbytes => exact .inr (List.cons.inj hbytes).1
  | block hms hbytes =>
    obtain ⟨inner, hinner⟩ := hms.flatMap_eq
    rw [hinner] at hbytes
    exact .inr (List.cons.inj hbytes).1

theorem Piece.ne_nil {bytes rest : List UInt8} (h : Piece bytes rest) : bytes ≠ [] := by
  rintro rfl
  cases h with
  | separator hb hbytes => cases hbytes
  | line hbytes => cases hbytes
  | block hms hbytes =>
    obtain ⟨inner, hinner⟩ := hms.flatMap_eq
    rw [hinner] at hbytes
    cases hbytes

/-- **One piece at most.** -/
theorem Piece.unique {bytes rest rest' : List UInt8} (h : Piece bytes rest)
    (h' : Piece bytes rest') : rest = rest' := by
  cases h with
  | separator hb hbytes =>
    subst hbytes
    exact (h'.eq_of_separator hb).symm
  | line hbytes hrest =>
    subst hbytes
    exact hrest.trans h'.eq_of_line.symm
  | @block ms hms hbytes hmarks =>
    obtain ⟨inner, hinner⟩ := hms.flatMap_eq
    have hbegins : bytes = 0x2F :: 0x2A :: (inner ++ rest) := by rw [hbytes, hinner]; rfl
    obtain ⟨ms', hms', hbytes', hmarks'⟩ := (hbegins ▸ h').exists_isComment
    rw [← hbegins] at hbytes' hmarks'
    have hle : ms <+: marks bytes := ⟨_, hmarks.symm⟩
    have hle' : ms' <+: marks bytes := ⟨_, hmarks'.symm⟩
    obtain rfl : ms = ms' := by
      rcases List.prefix_or_prefix_of_prefix hle hle' with hle | hle
      · exact hms.eq_of_prefix hms' hle
      · exact (hms'.eq_of_prefix hms hle).symm
    exact List.append_cancel_left (hbytes.symm.trans hbytes')

theorem Piece.isSuffix {bytes rest : List UInt8} (h : Piece bytes rest) : rest <:+ bytes := by
  cases h with
  | separator hb hbytes => exact hbytes ▸ List.suffix_cons _ _
  | @line text hbytes hrest =>
    have hleft : rest <:+ text := hrest ▸ (List.tail_suffix _).trans (List.dropWhile_suffix _)
    exact hbytes ▸ hleft.trans ((List.suffix_cons _ _).trans (List.suffix_cons _ _))
  | block hms hbytes => exact hbytes ▸ List.suffix_append _ _

/-- Bytes that begin with no piece: what they begin with is not fluff, or it is the beginning of a
comment that is none. -/
theorem StraySlash.not_piece {bytes rest : List UInt8} (h : StraySlash bytes) :
    ¬ Piece bytes rest := by
  obtain ⟨bytes, rfl, hline, hblock⟩ := h
  intro hpiece
  cases hpiece with
  | separator hb hbytes =>
    obtain ⟨rfl, -⟩ := List.cons.inj hbytes
    cases hb
  | line hbytes => exact hline (by rw [(List.cons.inj hbytes).2, List.head?_cons])
  | block hms hbytes =>
    obtain ⟨inner, hinner⟩ := hms.flatMap_eq
    rw [hinner] at hbytes
    exact hblock (by rw [(List.cons.inj hbytes).2]; rfl)

theorem Unclosed.not_piece {bytes rest : List UInt8} (h : Unclosed bytes) :
    ¬ Piece bytes rest := by
  obtain ⟨⟨inner, rfl⟩, hopen⟩ := h
  intro hpiece
  obtain ⟨ms, hms, -, hmarks⟩ := hpiece.exists_isComment
  exact hopen.not_isComment ⟨_, hmarks.symm⟩ hms

/-! ## The longest prefix -/

theorem isSuffix_of_pieces {bytes rest : List UInt8}
    (h : Relation.ReflTransGen Piece bytes rest) : rest <:+ bytes := by
  induction h with
  | refl => exact List.suffix_refl _
  | tail _ hpiece ih => exact hpiece.isSuffix.trans ih

/-- **Where fluff does not go on, it cannot have ended before.**  Pieces that are followed by none
are all the fluff there is. -/
theorem isGreatest_of_pieces {bytes rest : List UInt8}
    (h : Relation.ReflTransGen Piece bytes rest) (hlast : ∀ left, ¬ Piece rest left) :
    bytes.drop (bytes.length - rest.length) = rest ∧
      IsGreatest {n | IsFluff bytes n} (bytes.length - rest.length) := by
  have hdrop : bytes.drop (bytes.length - rest.length) = rest :=
    (List.suffix_iff_eq_drop.1 (isSuffix_of_pieces h)).symm
  refine ⟨hdrop, ⟨Nat.sub_le _ _, hdrop.symm ▸ h⟩, fun n ⟨hn, hfluff⟩ ↦ ?_⟩
  rcases Relation.ReflTransGen.total_of_right_unique (fun _ _ _ h h' ↦ h.unique h') h hfluff with
    hfurther | hbefore
  · rcases hfurther.cases_head with heq | ⟨left, hleft, -⟩
    · rw [heq, List.length_drop]
      omega
    · exact absurd hleft (hlast left)
  · have hlength := (isSuffix_of_pieces hbefore).length_le
    rw [List.length_drop] at hlength
    omega

end Fluff
end DocGrammar
