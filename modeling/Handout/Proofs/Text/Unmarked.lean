import Mathlib.Algebra.Ring.Nat
import Handout.Proofs.Text.Decoding

/-!
# Wide ASCII without a mark

ASCII text without U+0000 that is written in a wide encoding is recognized by where its zero bytes stand, if there is
enough of it (`wideEncoding?_ascii`).  Each of its units is one byte of the text among zero bytes (`asciiUnit`), so at
each position of a unit all bytes are zero or none is.  The verdicts are tried in order, and each one before the right
one asks for zero bytes, or for others, at a position where there are none.
-/

namespace Handout

open Encoding

/-- The bytes of an ASCII character. -/
def Encoding.asciiUnit : Encoding → UInt8 → Bytes
  | latin1, b => [b]
  | utf16 .little, b => [b, 0]
  | utf16 .big, b => [0, b]
  | utf32 .little, b => [b, 0, 0, 0]
  | utf32 .big, b => [0, 0, 0, b]

variable {e : Encoding} {bs : Bytes} {s : Text}

/-- The bytes of an ASCII text. -/
theorem encode_ascii (h : ∀ c ∈ s, c < 128) (e : Encoding) : e.encode s = (s.map UInt8.ofNat).flatMap e.asciiUnit := by
  rw [List.flatMap_map]
  refine List.flatMap_congr fun c hc => ?_
  have hc := h c hc
  have hlow : c % 256 = c := by omega
  have hhigh : c / 256 = 0 := by omega
  have hunit : c % 65536 = c := by omega
  have hplane : c / 65536 = 0 := by omega
  have hbasic : c < 0x10000 := by omega
  match e with
  | latin1 => rfl
  | utf16 .little | utf16 .big => simp [encodeChar, units16, unit16, asciiUnit, hlow, hhigh, hbasic]
  | utf32 .little | utf32 .big => simp [encodeChar, unit32, unit16, asciiUnit, hlow, hhigh, hunit, hplane]

theorem mem_asciiUnit {b x : UInt8} (h : x ∈ e.asciiUnit b) : x = b ∨ x = 0 := by
  match e with
  | latin1 => exact .inl (List.mem_singleton.1 h)
  | utf16 .little | utf16 .big | utf32 .little | utf32 .big =>
    simp only [asciiUnit, List.mem_cons, List.not_mem_nil, or_false] at h
    tauto

namespace Detection

/-! ### Counting -/

section

variable {p : UInt8 → Bool} {ks : List Nat} {pos : Nat}

/-- How many bytes that satisfy `p` stand at positions that are, modulo four, among `ks`. -/
def countIn (p : UInt8 → Bool) (ks : List Nat) (pos : Nat) (data : Bytes) : Nat :=
  (ks.map fun k => countAt p k pos data).sum

private theorem countAt_append (k : Nat) (a b : Bytes) :
    countAt p k pos (a ++ b) = countAt p k pos a + countAt p k (pos + a.length) b := by
  induction a generalizing pos with
  | nil => simp [countAt]
  | cons x a ih =>
    rw [List.cons_append, countAt, countAt, ih, List.length_cons, Nat.add_assoc, Nat.add_assoc, Nat.add_comm 1]

private theorem countIn_append (a b : Bytes) :
    countIn p ks pos (a ++ b) = countIn p ks pos a + countIn p ks (pos + a.length) b := by
  induction ks with
  | nil => rfl
  | cons k ks ih =>
    simp only [countIn, List.map_cons, List.sum_cons, countAt_append] at ih ⊢
    rw [ih]
    omega

/-- If each unit has the same number of such bytes, wherever it stands, all units together have it so many times. -/
private theorem countIn_units {unit : UInt8 → Bytes} {width m : Nat} (hwidth : ∀ b, (unit b).length = width)
    (hunit : ∀ b ∈ bs, ∀ pos, pos % width = 0 → countIn p ks pos (unit b) = m) (hpos : pos % width = 0) :
    countIn p ks pos (bs.flatMap unit) = bs.length * m := by
  induction bs generalizing pos with
  | nil =>
    simp [countIn, countAt]
  | cons b bs ih =>
    obtain ⟨hb, hbs⟩ := List.forall_mem_cons.1 hunit
    have hnext : (pos + width) % width = 0 := by rw [Nat.add_mod_right, hpos]
    rw [List.flatMap_cons, countIn_append, hb pos hpos, hwidth, ih hbs hnext, List.length_cons, Nat.succ_mul,
      Nat.add_comm]

end

/-! ### Verdicts -/

section

variable (hbs : ∀ b ∈ bs, b ≠ 0) {order : ByteOrder} {p : UInt8 → Bool} {k m : Nat} {data : Bytes}

include hbs

/-- In a text of 32-bit units the bytes at one position are all alike. -/
private theorem countAt_units32
    (hunit : ∀ b ≠ 0, ∀ pos, pos % 4 = 0 → countAt p k pos ((utf32 order).asciiUnit b) = m) :
    countAt p k 0 (bs.flatMap (utf32 order).asciiUnit) = bs.length * m := by
  have hwidth : ∀ b, ((utf32 order).asciiUnit b).length = 4 := fun b => by cases order <;> rfl
  have h : countIn p [k] 0 (bs.flatMap (utf32 order).asciiUnit) = bs.length * m :=
    countIn_units hwidth (fun b hb pos hpos => by simpa [countIn] using hunit b (hbs b hb) pos hpos) (Nat.zero_mod 4)
  simpa [countIn] using h

/-- In a text of 16-bit units the bytes at two positions are all alike. -/
private theorem countAt_units16
    (hunit : ∀ b ≠ 0, ∀ pos, pos % 4 = 0 ∨ pos % 4 = 2 →
      countAt p k pos ((utf16 order).asciiUnit b) + countAt p (k + 2) pos ((utf16 order).asciiUnit b) = m) :
    countAt p k 0 (bs.flatMap (utf16 order).asciiUnit) + countAt p (k + 2) 0 (bs.flatMap (utf16 order).asciiUnit) =
      bs.length * m := by
  have hwidth : ∀ b, ((utf16 order).asciiUnit b).length = 2 := fun b => by cases order <;> rfl
  have h : countIn p [k, k + 2] 0 (bs.flatMap (utf16 order).asciiUnit) = bs.length * m :=
    countIn_units hwidth (fun b hb pos hpos => by simpa [countIn] using hunit b (hbs b hb) pos (by omega))
      (Nat.zero_mod 2)
  simpa [countIn] using h

private theorem counts_big32 (hdata : bs.flatMap (utf32 .big).asciiUnit = data) :
    zeros data 0 = bs.length ∧ zeros data 1 = bs.length ∧ zeros data 2 = bs.length ∧ nonzeros data 3 = bs.length := by
  subst hdata
  refine ⟨(countAt_units32 hbs ?_).trans (Nat.mul_one _), (countAt_units32 hbs ?_).trans (Nat.mul_one _),
    (countAt_units32 hbs ?_).trans (Nat.mul_one _), (countAt_units32 hbs ?_).trans (Nat.mul_one _)⟩ <;>
    (intro b hb pos hpos; simp [countAt, asciiUnit, hpos, hb, Nat.add_mod])

private theorem counts_little32 (hdata : bs.flatMap (utf32 .little).asciiUnit = data) :
    zeros data 0 = 0 ∧ nonzeros data 0 = bs.length ∧ zeros data 1 = bs.length ∧ zeros data 2 = bs.length ∧
      zeros data 3 = bs.length := by
  subst hdata
  refine ⟨(countAt_units32 hbs ?_).trans (Nat.mul_zero _), (countAt_units32 hbs ?_).trans (Nat.mul_one _),
    (countAt_units32 hbs ?_).trans (Nat.mul_one _), (countAt_units32 hbs ?_).trans (Nat.mul_one _),
    (countAt_units32 hbs ?_).trans (Nat.mul_one _)⟩ <;>
    (intro b hb pos hpos; simp [countAt, asciiUnit, hpos, hb, Nat.add_mod])

private theorem counts_big16 (hdata : bs.flatMap (utf16 .big).asciiUnit = data) :
    nonzeros data 0 + nonzeros data 2 = 0 ∧ zeros data 1 + zeros data 3 = 0 ∧
      nonzeros data 1 + nonzeros data 3 = bs.length ∧ zeros data 0 + zeros data 2 = bs.length := by
  subst hdata
  refine ⟨(countAt_units16 hbs ?_).trans (Nat.mul_zero _), (countAt_units16 hbs ?_).trans (Nat.mul_zero _),
    (countAt_units16 hbs ?_).trans (Nat.mul_one _), (countAt_units16 hbs ?_).trans (Nat.mul_one _)⟩ <;>
    (intro b hb pos hpos; rcases hpos with hpos | hpos <;> simp [countAt, asciiUnit, hpos, hb, Nat.add_mod])

private theorem counts_little16 (hdata : bs.flatMap (utf16 .little).asciiUnit = data) :
    zeros data 0 + zeros data 2 = 0 ∧ nonzeros data 1 + nonzeros data 3 = 0 ∧
      nonzeros data 0 + nonzeros data 2 = bs.length ∧ zeros data 1 + zeros data 3 = bs.length := by
  subst hdata
  refine ⟨(countAt_units16 hbs ?_).trans (Nat.mul_zero _), (countAt_units16 hbs ?_).trans (Nat.mul_zero _),
    (countAt_units16 hbs ?_).trans (Nat.mul_one _), (countAt_units16 hbs ?_).trans (Nat.mul_one _)⟩ <;>
    (intro b hb pos hpos; rcases hpos with hpos | hpos <;> simp [countAt, asciiUnit, hpos, hb, Nat.add_mod])

end

private theorem mostOfQuarter_all {n : Nat} (h : 0 < n) : mostOfQuarter (4 * n) n = true := by
  simp only [mostOfQuarter, decide_eq_true_eq]
  omega

private theorem mostOfHalf_all {n : Nat} (h : 0 < n) : mostOfHalf (2 * n) n = true := by
  simp only [mostOfHalf, decide_eq_true_eq]
  omega

private theorem mostOfQuarter_none (n : Nat) : mostOfQuarter n 0 = false := by simp [mostOfQuarter]

private theorem mostOfHalf_none (n : Nat) : mostOfHalf n 0 = false := by simp [mostOfHalf]

/-- The groups of four are the units. -/
private theorem wellFormed32_units (order : ByteOrder) (bs : Bytes) :
    wellFormed32 order (bs.flatMap (utf32 order).asciiUnit) = true := by
  induction bs with
  | nil => rfl
  | cons b bs ih =>
    unfold wellFormed32 at ih ⊢
    cases order <;> simpa [asciiUnit, groups, badUnit32] using ih

private theorem mem_of_mem_groups {data : Bytes} {q : UInt8 × UInt8 × UInt8 × UInt8} (h : q ∈ groups data) :
    q.1 ∈ data ∧ q.2.1 ∈ data ∧ q.2.2.1 ∈ data ∧ q.2.2.2 ∈ data := by
  fun_induction groups data with
  | case1 a b c d r ih =>
    rcases List.mem_cons.1 h with rfl | h
    · simp
    · obtain ⟨ha, hb, hc, hd⟩ := ih h
      simp [ha, hb, hc, hd]
  | case2 => cases h

/-- No ASCII byte is one of a surrogate. -/
private theorem wellFormed16_of_ascii {data : Bytes} (h : ∀ b ∈ data, b < 128) (order : ByteOrder) :
    wellFormed16 order data = true := by
  have hpairs : ∀ l : Bytes, (∀ b ∈ l, b < 128) → pairsSurrogates false l = true := by
    intro l hl
    induction l with
    | nil => rfl
    | cons b l ih =>
      obtain ⟨hb, hl⟩ := List.forall_mem_cons.1 hl
      have hhigh : ¬ 0xD8 ≤ b := fun hle => by have := UInt8.lt_of_le_of_lt hle hb; revert this; decide
      have hlow : ¬ 0xDC ≤ b := fun hle => by have := UInt8.lt_of_le_of_lt hle hb; revert this; decide
      simp [pairsSurrogates, hhigh, hlow, ih hl]
  refine hpairs _ fun b hb => h b ?_
  obtain ⟨q, hq, hb⟩ := List.mem_flatMap.1 hb
  obtain ⟨ha, hb', hc, hd⟩ := mem_of_mem_groups hq
  cases order <;> simp only [List.mem_cons, List.not_mem_nil, or_false] at hb <;> rcases hb with rfl | rfl <;> assumption

/-- A mark that is no ASCII does not begin ASCII. -/
private theorem isPrefixOf_eq_false {data : Bytes} (mark : Bytes) (hmark : ∃ b ∈ mark, ¬ b < 128) (h : ∀ b ∈ data, b < 128) :
    mark.isPrefixOf data = false := by
  obtain ⟨b, hb, hwide⟩ := hmark
  refine Bool.eq_false_iff.2 fun hprefix => hwide (h b ?_)
  exact (List.isPrefixOf_iff_prefix.1 hprefix).subset hb

/-- The verdict on enough ASCII in a wide encoding. -/
private theorem unmarked?_units (he : e ≠ latin1) (hbs : ∀ b ∈ bs, b ≠ 0) (hlength : 20 ≤ bs.length)
    (hascii : ∀ b ∈ bs.flatMap e.asciiUnit, b < 128) : unmarked? (bs.flatMap e.asciiUnit) = some e := by
  have hpos : 0 < bs.length := by omega
  have hfirst := isPrefixOf_eq_false [0xEF, 0xBB, 0xBF] (by decide) hascii
  have hsecond := isPrefixOf_eq_false [0, 0, 0xFF, 0xFE] (by decide) hascii
  have hn : ∀ (e : Encoding) (width : Nat), (∀ b, (e.asciiUnit b).length = width) →
      (bs.flatMap e.asciiUnit).length = width * bs.length := by
    intro e width hwidth
    simp [List.length_flatMap, hwidth, Nat.mul_comm]
  unfold unmarked?
  rw [hfirst, hsecond]
  match e with
  | latin1 => exact absurd rfl he
  | utf32 .big =>
    obtain ⟨hz0, hz1, hz2, hn3⟩ := counts_big32 hbs rfl
    have hlen := hn (utf32 .big) 4 fun _ => rfl
    have henough : 80 ≤ 4 * bs.length := by omega
    simp [hz0, hz1, hz2, hn3, wellFormed32_units, hlen, henough, mostOfQuarter_all hpos]
  | utf32 .little =>
    obtain ⟨hz0, hn0, hz1, hz2, hz3⟩ := counts_little32 hbs rfl
    have hlen := hn (utf32 .little) 4 fun _ => rfl
    have henough : 80 ≤ 4 * bs.length := by omega
    simp [hz0, hn0, hz1, hz2, hz3, wellFormed32_units, hlen, henough, mostOfQuarter_all hpos, mostOfQuarter_none]
  | utf16 .big =>
    obtain ⟨hnone, hzeros, hodd, heven⟩ := counts_big16 hbs rfl
    obtain ⟨hn0, -⟩ := Nat.add_eq_zero_iff.1 hnone
    obtain ⟨hz1, -⟩ := Nat.add_eq_zero_iff.1 hzeros
    have hlen := hn (utf16 .big) 2 fun _ => rfl
    have henough : 40 ≤ 2 * bs.length := by omega
    simp [hn0, hz1, hodd, heven, wellFormed16_of_ascii hascii, hlen, henough, mostOfHalf_all hpos, mostOfQuarter_none]
  | utf16 .little =>
    obtain ⟨hzeros, hnone, heven, hodd⟩ := counts_little16 hbs rfl
    obtain ⟨hz0, hz2⟩ := Nat.add_eq_zero_iff.1 hzeros
    have hlen := hn (utf16 .little) 2 fun _ => rfl
    have henough : 40 ≤ 2 * bs.length := by omega
    simp [hz0, hz2, hnone, heven, hodd, wellFormed16_of_ascii hascii, hlen, henough, mostOfHalf_all hpos,
      mostOfHalf_none, mostOfQuarter_none]

/-- Enough ASCII without U+0000 in a wide encoding is recognized without a mark. -/
theorem wideEncoding?_ascii (he : e ≠ latin1) (hs : ∀ c ∈ s, 0 < c ∧ c < 128) (hlength : 20 ≤ s.length) :
    wideEncoding? (e.encode s) = some ([], e) := by
  have hbs : ∀ b ∈ s.map UInt8.ofNat, b ≠ 0 ∧ b < 128 := by
    intro b hb
    obtain ⟨c, hc, rfl⟩ := List.mem_map.1 hb
    obtain ⟨hpos, hlt⟩ := hs c hc
    have hbyte : (UInt8.ofNat c).toNat = c := by
      rw [UInt8.toNat_ofNat', Nat.mod_eq_of_lt (by omega)]
    refine ⟨fun h0 => ?_, UInt8.lt_iff_toNat_lt.2 (by rw [hbyte]; exact hlt)⟩
    rw [h0, UInt8.toNat_zero] at hbyte
    omega
  have hascii : ∀ b ∈ (s.map UInt8.ofNat).flatMap e.asciiUnit, b < 128 := by
    intro x hx
    obtain ⟨b, hb, hx⟩ := List.mem_flatMap.1 hx
    rcases mem_asciiUnit hx with rfl | rfl
    · exact (hbs x hb).2
    · decide
  have hmark : mark? ((s.map UInt8.ofNat).flatMap e.asciiUnit) = none := by
    refine List.find?_eq_none.2 fun m hm => ?_
    have hwide : ∀ m ∈ byteOrderMarks, ∃ b ∈ m.1, ¬ b < 128 := by decide
    rw [isPrefixOf_eq_false m.1 (hwide m hm) hascii]
    exact Bool.false_ne_true
  have hzero : 0 ∈ (s.map UInt8.ofNat).flatMap e.asciiUnit := by
    obtain ⟨c, r, rfl⟩ := List.exists_cons_of_length_pos (Nat.lt_of_lt_of_le (by decide : 0 < 20) hlength)
    refine List.mem_flatMap.2 ⟨UInt8.ofNat c, List.mem_cons_self, ?_⟩
    match e with
    | latin1 => exact absurd rfl he
    | utf16 .little | utf16 .big | utf32 .little | utf32 .big => simp [asciiUnit]
  rw [encode_ascii (fun c hc => (hs c hc).2), wideEncoding?, hmark]
  simp only [List.contains_iff_mem.2 hzero, if_true]
  rw [unmarked?_units he (fun b hb => (hbs b hb).1) (by simpa using hlength) hascii]
  rfl

end Detection

end Handout
