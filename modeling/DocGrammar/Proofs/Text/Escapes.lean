import DocGrammar.Doc.Collection
import DocGrammar.Proofs.Printing.Tokens
import DocGrammar.Proofs.Text.Tokens

/-!
# Escapes, counted and written

`Quoted.unescape` makes a string shorter, by one byte for each escape in it.  How much shorter can
be told beforehand, in a pass that only counts (`Quoted.escapes`), and then there is exactly the
room that the result takes.  Both passes have to agree on which backslash escapes and which is
escaped.  So both take a string apart in the same way: into bytes that stand for themselves and
pairs of a backslash and another byte (`Quoted.Paired`), with nothing behind them but at most one
more backslash.

On the way out `Quoted.escape` goes from character to character.  One may as well search the bytes
for the next one to escape, write all before it at once and go on behind it (`Quoted.searched`).
None of the bytes searched for is a part of a longer character, so the outcome is the same.  It
consists of pairs and of bytes that are no quotes, and has no newline (`Quoted.unescape_passes`).
-/

set_option autoImplicit false

namespace DocGrammar
namespace Quoted

/-! ## Pairs -/

/-- A string whose backslashes each have a byte to escape, when it is read from the left, and whose
other bytes are such as `plain` allows. -/
inductive Paired (plain : UInt8 → Prop) : List UInt8 → Prop where
  | nil : Paired plain []
  | plain {b : UInt8} {rest : List UInt8} : b ≠ 0x5C → plain b → Paired plain rest →
      Paired plain (b :: rest)
  | pair (b : UInt8) {rest : List UInt8} : Paired plain rest → Paired plain (0x5C :: b :: rest)

/-- The number of escapes in a string: of backslashes behind which there is a byte, which is not
looked at again. -/
def escapes : List UInt8 → Nat
  | [] => 0
  | b :: rest =>
    if b = 0x5C then
      match rest with
      | [] => 0
      | _ :: rest => escapes rest + 1
    else escapes rest

theorem escapes_pair (b : UInt8) (rest : List UInt8) :
    escapes (0x5C :: b :: rest) = escapes rest + 1 := by
  simp [escapes]

theorem escapes_plain {b : UInt8} (hb : b ≠ 0x5C) (rest : List UInt8) :
    escapes (b :: rest) = escapes rest := by
  cases rest <;> simp [escapes, hb]

theorem unescape_pair (b : UInt8) (rest : List UInt8) :
    unescape (0x5C :: b :: rest) = resolve b :: unescape rest := by
  simp [unescape]

section

variable {plain : UInt8 → Prop} {front : List UInt8}

/-- Pairs are resolved one by one, whatever comes behind them. -/
theorem Paired.unescape_append (h : Paired plain front) (tail : List UInt8) :
    unescape (front ++ tail) = unescape front ++ unescape tail := by
  induction h with
  | nil => rfl
  | plain hb _ _ ih => simp [Direct.unescape_cons hb, ih]
  | pair b _ ih => simp [unescape_pair, ih]

theorem Paired.escapes_append (h : Paired plain front) (tail : List UInt8) :
    escapes (front ++ tail) = escapes front + escapes tail := by
  induction h with
  | nil => simp [escapes]
  | plain hb _ _ ih => simp [escapes_plain hb, ih]
  | pair b _ ih => simp [escapes_pair, ih, Nat.add_right_comm]

theorem Paired.append {tail : List UInt8} (h : Paired plain front) (htail : Paired plain tail) :
    Paired plain (front ++ tail) := by
  induction h with
  | nil => exact htail
  | plain hb hplain _ ih => exact ih.plain hb hplain
  | pair b _ ih => exact ih.pair b

end

/-- **A string is made of bytes, of pairs, and of a backslash at the end if it has nothing to
escape.** -/
theorem exists_paired : ∀ raw : List UInt8, ∃ front tail, raw = front ++ tail ∧
    Paired (fun _ ↦ True) front ∧ (tail = [] ∨ tail = [0x5C])
  | [] => ⟨[], [], rfl, .nil, .inl rfl⟩
  | [b] => by
    by_cases hb : b = 0x5C
    · exact ⟨[], [b], rfl, .nil, .inr (by rw [hb])⟩
    · exact ⟨[b], [], rfl, .plain hb trivial .nil, .inl rfl⟩
  | b :: c :: rest => by
    by_cases hb : b = 0x5C
    · obtain ⟨front, tail, hraw, hfront, htail⟩ := exists_paired rest
      exact ⟨b :: c :: front, tail, by rw [hraw]; rfl, hb ▸ hfront.pair c, htail⟩
    · obtain ⟨front, tail, hraw, hfront, htail⟩ := exists_paired (c :: rest)
      exact ⟨b :: front, tail, by rw [hraw]; rfl, hfront.plain hb trivial, htail⟩

/-! ## The room that is counted -/

/-- **Each escape is a byte less.** -/
theorem length_unescape (raw : List UInt8) : (unescape raw).length + escapes raw = raw.length := by
  fun_induction unescape raw with
  | case1 => rfl
  | case2 b => simp [escapes]
  | case3 c rest ih =>
    rw [escapes_pair, List.length_cons, List.length_cons, List.length_cons, ← ih]
    omega
  | case4 b c rest hb ih =>
    rw [escapes_plain hb, List.length_cons, List.length_cons, ← ih]
    omega

/-- What there is room for is added without growing, and fills the room. -/
theorem foldl_push (items done : List UInt8) :
    items.foldl Collection.push ⟨done, items.length⟩ = ⟨done ++ items, 0⟩ := by
  induction items generalizing done with
  | nil => simp
  | cons b items ih =>
    have hpush : Collection.push ⟨done, items.length + 1⟩ b = ⟨done ++ [b], items.length⟩ := rfl
    rw [List.length_cons, List.foldl_cons, hpush, ih, List.append_assoc, List.singleton_append]

/-! ## Searching for what to escape -/

/-- The bytes of the characters that are escaped. -/
def isEscaped (b : UInt8) : Bool := b == 0x09 || b == 0x0A || b == 0x0D || b == 0x5C || b == 0x22

/-- What is written for a byte that was searched for. -/
def escapeByte (b : UInt8) : List UInt8 :=
  if b = 0x09 then [0x5C, 0x74]
  else if b = 0x0A then [0x5C, 0x6E]
  else if b = 0x0D then [0x5C, 0x72]
  else if b = 0x5C then [0x5C, 0x5C]
  else [0x5C, 0x22]

/-- What is written for a text, when all that stands before the next byte to escape is written at
once. -/
def searched (bytes : List UInt8) : List UInt8 :=
  match _hfound : bytes.dropWhile (fun b ↦ !isEscaped b) with
  | [] => bytes
  | b :: rest => bytes.takeWhile (fun b ↦ !isEscaped b) ++ escapeByte b ++ searched rest
  termination_by bytes.length
  decreasing_by
    have hle : (bytes.dropWhile fun b ↦ !isEscaped b).length ≤ bytes.length :=
      (List.dropWhile_suffix _).length_le
    rw [_hfound, List.length_cons] at hle
    exact hle

/-- What is written for each byte on its own. -/
def written (b : UInt8) : List UInt8 := if isEscaped b then escapeByte b else [b]

theorem flatMap_written {bytes : List UInt8} (h : ∀ b ∈ bytes, isEscaped b = false) :
    bytes.flatMap written = bytes := by
  induction bytes with
  | nil => rfl
  | cons b bytes ih =>
    have hbytes := ih fun c hc ↦ h c (List.mem_cons_of_mem b hc)
    simp [written, h b, hbytes]

/-- **Searching cuts a text in the same places as going through it byte by byte.** -/
theorem searched_eq (bytes : List UInt8) : searched bytes = bytes.flatMap written := by
  have hkept (bytes : List UInt8) :
      (bytes.takeWhile fun b ↦ !isEscaped b).flatMap written =
        bytes.takeWhile fun b ↦ !isEscaped b :=
    flatMap_written fun b hb ↦ by simpa using List.mem_takeWhile_imp hb
  fun_induction searched bytes with
  | case1 bytes hdrop =>
    have hwhole := List.takeWhile_append_dropWhile (p := fun b ↦ !isEscaped b) (l := bytes)
    rw [hdrop, List.append_nil] at hwhole
    rw [← hwhole, hkept]
  | case2 bytes b rest hdrop ih =>
    have hwhole := List.takeWhile_append_dropWhile (p := fun b ↦ !isEscaped b) (l := bytes)
    rw [hdrop] at hwhole
    have hb := List.head?_dropWhile_not (fun b ↦ !isEscaped b) bytes
    rw [hdrop] at hb
    conv_rhs => rw [← hwhole]
    rw [List.flatMap_append, List.flatMap_cons, hkept, ih, List.append_assoc]
    simp [written, by simpa using hb]

/-- A character is escaped as its bytes are, on their own. -/
theorem flatMap_escape (c : Char) :
    (escape c).flatMap String.utf8EncodeChar = (String.utf8EncodeChar c).flatMap written := by
  rw [escape]
  split
  · next h => rw [h]; rfl
  split
  · next h => rw [h]; rfl
  split
  · next h => rw [h]; rfl
  split
  · next h => rw [h]; rfl
  split
  · next h => rw [h]; rfl
  · next htab hnewline hreturn hbackslash hquote =>
    rw [List.flatMap_singleton, flatMap_written fun b hb ↦ ?_]
    have hne {d : Char} (hd : d.toNat < 0x80) (h : c ≠ d) := Utf8.encodeChar_ne hd h b hb
    have htab : b ≠ 0x09 := hne (by decide) htab
    have hnewline : b ≠ 0x0A := hne (by decide) hnewline
    have hreturn : b ≠ 0x0D := hne (by decide) hreturn
    have hbackslash : b ≠ 0x5C := hne (by decide) hbackslash
    have hquote : b ≠ 0x22 := hne (by decide) hquote
    simp [isEscaped, htab, hnewline, hreturn, hbackslash, hquote]

/-- **The bytes of a text with its escapes are what is written when one searches for them.** -/
theorem encode_body (text : String) : Utf8.encode (body text) = searched (Utf8.encode text) := by
  rw [body, Utf8.encode_ofList, searched_eq, Utf8.encode_eq_flatMap text, List.flatMap_assoc,
    List.flatMap_assoc]
  exact congrArg (text.toList.flatMap ·) (funext flatMap_escape)

/-! ## What is written for a text -/

theorem escapeByte_eq {b : UInt8} (h : isEscaped b = true) :
    ∃ c, escapeByte b = [0x5C, c] ∧ resolve c = b ∧ c ≠ 0x0A := by
  simp only [isEscaped, Bool.or_eq_true, beq_iff_eq] at h
  rcases h with (((rfl | rfl) | rfl) | rfl) | rfl
  all_goals exact ⟨_, rfl, by decide, by decide⟩

/-- What is written for a byte stands for it, and has neither a newline nor a quote of its own. -/
theorem written_spec (b : UInt8) :
    unescape (written b) = [b] ∧ 0x0A ∉ written b ∧ Paired (· ≠ 0x22) (written b) := by
  cases h : isEscaped b with
  | true =>
    obtain ⟨c, hbytes, hresolve, hc⟩ := escapeByte_eq h
    rw [written, if_pos h, hbytes]
    exact ⟨by rw [unescape_pair, hresolve, unescape], by simpa using hc.symm, .pair c .nil⟩
  | false =>
    rw [written, h, if_neg Bool.false_ne_true]
    simp only [isEscaped, Bool.or_eq_false_iff, beq_eq_false_iff_ne] at h
    obtain ⟨⟨⟨⟨-, hnewline⟩, -⟩, hbackslash⟩, hquote⟩ := h
    exact ⟨rfl, by simpa using hnewline.symm, .plain hbackslash hquote .nil⟩

theorem searched_spec (bytes : List UInt8) :
    unescape (searched bytes) = bytes ∧ 0x0A ∉ searched bytes ∧
      Paired (· ≠ 0x22) (searched bytes) := by
  rw [searched_eq]
  induction bytes with
  | nil => exact ⟨rfl, List.not_mem_nil, .nil⟩
  | cons b bytes ih =>
    obtain ⟨hbytes, hnewlines, hpaired⟩ := ih
    obtain ⟨hb, hnewline, hpair⟩ := written_spec b
    rw [List.flatMap_cons, hpair.unescape_append, hb, hbytes]
    exact ⟨rfl, by simp [hnewline, hnewlines], hpair.append hpaired⟩

/-- **Escapes are counted, resolved and written alike.**  Of a string, whatever its bytes: the
escapes that are counted are no more than the bytes; the result of resolving them is that much
shorter, and fills the room that is made for it; and all of them are pairs, with at most a backslash
behind them that stays.  Of a text: what is written between the quotes is what a search for the
characters to escape writes; resolving gives the bytes of the text back; and between the quotes
there is no newline, and no quote but in a pair with a backslash before it. -/
theorem unescape_passes :
    (∀ raw : List UInt8,
      escapes raw ≤ raw.length ∧
      (unescape raw).length = raw.length - escapes raw ∧
      (unescape raw).foldl Collection.push ⟨[], raw.length - escapes raw⟩ = ⟨unescape raw, 0⟩ ∧
      ∃ front tail, raw = front ++ tail ∧ Paired (fun _ ↦ True) front ∧
        (tail = [] ∨ tail = [0x5C]) ∧
        unescape raw = unescape front ++ tail ∧ escapes raw = escapes front) ∧
    ∀ text : String, ∃ inside,
      Utf8.encode (encode text) = 0x22 :: (inside ++ [0x22]) ∧
      inside = searched (Utf8.encode text) ∧
      unescape inside = Utf8.encode text ∧
      0x0A ∉ inside ∧ Paired (· ≠ 0x22) inside := by
  refine ⟨fun raw ↦ ?_, fun text ↦ ?_⟩
  · have hlength := length_unescape raw
    have hroom : (unescape raw).length = raw.length - escapes raw := by omega
    refine ⟨by omega, hroom, by rw [← hroom, foldl_push, List.nil_append], ?_⟩
    obtain ⟨front, tail, rfl, hfront, htail⟩ := exists_paired raw
    refine ⟨front, tail, rfl, hfront, htail, ?_, ?_⟩
    · rw [hfront.unescape_append]
      rcases htail with rfl | rfl <;> rfl
    · rw [hfront.escapes_append]
      rcases htail with rfl | rfl <;> rfl
  · exact ⟨_, by rw [Direct.encode_quoted, encode_body], rfl, searched_spec (Utf8.encode text)⟩

end Quoted
end DocGrammar
