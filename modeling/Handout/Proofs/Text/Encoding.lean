import Handout.Text.Encoding

/-!
# Encoding undoes decoding

Whatever bytes are decoded, encoding the text again gives the bytes back (`encode_of_decode?`).  Every unit of a
wide encoding is written with the bytes that it was read from; a pair of surrogates is split into the units from
which it was joined, and a surrogate that stands alone is a unit of its own.
-/

namespace Handout.Encoding

theorem encode_cons (e : Encoding) (c : Nat) (t : Text) : e.encode (c :: t) = e.encodeChar c ++ e.encode t := rfl

theorem encode_append (e : Encoding) (t u : Text) : e.encode (t ++ u) = e.encode t ++ e.encode u :=
  List.flatMap_append

theorem encode_flatten (e : Encoding) (ts : List Text) : e.encode ts.flatten = ts.flatMap e.encode := by
  induction ts with
  | nil => rfl
  | cons t ts ih => rw [List.flatten_cons, encode_append, ih, List.flatMap_cons]

/-! ### Latin-1 -/

theorem encode_latin1 (b : Bytes) : latin1.encode (b.map UInt8.toNat) = b := by
  induction b with
  | nil => rfl
  | cons x b ih =>
    rw [List.map_cons, encode_cons, ih]
    simp [encodeChar]

/-! ### UTF-16 -/

private theorem ofNat_low (a b : UInt8) : UInt8.ofNat ((a.toNat + 256 * b.toNat) % 256) = a := by
  rw [Nat.add_mul_mod_self_left, Nat.mod_eq_of_lt a.toNat_lt, UInt8.ofNat_toNat]

private theorem ofNat_high (a b : UInt8) : UInt8.ofNat ((a.toNat + 256 * b.toNat) / 256) = b := by
  have ha := a.toNat_lt
  rw [show (a.toNat + 256 * b.toNat) / 256 = b.toNat by omega, UInt8.ofNat_toNat]

private theorem unit16_little (a b : UInt8) : unit16 .little (a.toNat + 256 * b.toNat) = [a, b] := by
  simp only [unit16, ofNat_low, ofNat_high]

private theorem unit16_big (a b : UInt8) : unit16 .big (b.toNat + 256 * a.toNat) = [a, b] := by
  simp only [unit16, ofNat_low, ofNat_high]

private theorem flatMap_unit16 {order : ByteOrder} {b : Bytes} {us : List Nat}
    (h : readUnits16 order b = some us) : us.flatMap (unit16 order) = b := by
  fun_induction readUnits16 order b generalizing us with
  | case1 => cases h; rfl
  | case2 => cases h
  | case3 a b r u =>
    rename_i ih
    obtain ⟨vs, hr, rfl⟩ := Option.map_eq_some_iff.1 h
    rw [List.flatMap_cons, ih hr]
    cases order with
    | little => rw [unit16_little]; rfl
    | big => rw [unit16_big]; rfl

/-- The units of a text. -/
private def unitsOf (t : Text) : List Nat := t.flatMap units16

private theorem encode_utf16 (order : ByteOrder) (t : Text) :
    (utf16 order).encode t = (unitsOf t).flatMap (unit16 order) := by
  simp only [encode, unitsOf, List.flatMap_assoc]
  rfl

private theorem units16_of_lt {c : Nat} (h : c < 0x10000) : units16 c = [c] := by
  rw [units16, if_pos h]

/-- A pair of surrogates is what the joined code point is written with. -/
private theorem units16_join {u v : Nat} (hu : isHighSurrogate u) (hv : isLowSurrogate v) :
    units16 (0x10000 + (u - 0xD800) * 1024 + (v - 0xDC00)) = [u, v] := by
  simp only [isHighSurrogate, isLowSurrogate, Bool.and_eq_true, decide_eq_true_eq] at hu hv
  have hhigh : 0xD800 + (0x10000 + (u - 0xD800) * 1024 + (v - 0xDC00) - 0x10000) / 1024 = u := by omega
  have hlow : 0xDC00 + (0x10000 + (u - 0xD800) * 1024 + (v - 0xDC00) - 0x10000) % 1024 = v := by omega
  rw [units16, if_neg (by omega), hhigh, hlow]

private theorem unitsOf_joinSurrogates {us : List Nat} (h : ∀ u ∈ us, u < 0x10000) :
    unitsOf (joinSurrogates us) = us := by
  induction us using joinSurrogates.induct with
  | case1 => rfl
  | case2 u =>
    rw [joinSurrogates, unitsOf, List.flatMap_singleton, units16_of_lt (h u (by simp))]
  | case3 u v r hs ih =>
    rw [joinSurrogates, if_pos hs]
    rw [Bool.and_eq_true] at hs
    rw [unitsOf, List.flatMap_cons, units16_join hs.1 hs.2]
    rw [← unitsOf, ih fun w hw => h w (by simp [hw])]
    rfl
  | case4 u v r hs ih =>
    rw [joinSurrogates, if_neg hs, unitsOf, List.flatMap_cons, units16_of_lt (h u (by simp)), ← unitsOf,
      ih fun w hw => h w (List.mem_cons_of_mem _ hw)]
    rfl

theorem lt_of_mem_readUnits16 {order : ByteOrder} {b : Bytes} {us : List Nat}
    (h : readUnits16 order b = some us) : ∀ u ∈ us, u < 0x10000 := by
  fun_induction readUnits16 order b generalizing us with
  | case1 => cases h; simp
  | case2 => cases h
  | case3 a b r u =>
    rename_i ih
    obtain ⟨vs, hr, rfl⟩ := Option.map_eq_some_iff.1 h
    have ha := a.toNat_lt
    have hb := b.toNat_lt
    intro u hu
    rcases List.mem_cons.1 hu with rfl | hu
    · cases order
      · show a.toNat + 256 * b.toNat < 0x10000
        omega
      · show b.toNat + 256 * a.toNat < 0x10000
        omega
    · exact ih hr u hu

/-! ### UTF-32 -/

private theorem unit32_little (a b c d : UInt8) :
    unit32 .little (a.toNat + 256 * b.toNat + 65536 * (c.toNat + 256 * d.toNat)) = [a, b, c, d] := by
  have ha := a.toNat_lt
  have hb := b.toNat_lt
  simp only [unit32]
  rw [show (a.toNat + 256 * b.toNat + 65536 * (c.toNat + 256 * d.toNat)) % 65536 = a.toNat + 256 * b.toNat by omega,
    show (a.toNat + 256 * b.toNat + 65536 * (c.toNat + 256 * d.toNat)) / 65536 = c.toNat + 256 * d.toNat by omega,
    unit16_little, unit16_little]
  rfl

private theorem unit32_big (a b c d : UInt8) :
    unit32 .big (d.toNat + 256 * c.toNat + 65536 * (b.toNat + 256 * a.toNat)) = [a, b, c, d] := by
  have hc := c.toNat_lt
  have hd := d.toNat_lt
  simp only [unit32]
  rw [show (d.toNat + 256 * c.toNat + 65536 * (b.toNat + 256 * a.toNat)) % 65536 = d.toNat + 256 * c.toNat by omega,
    show (d.toNat + 256 * c.toNat + 65536 * (b.toNat + 256 * a.toNat)) / 65536 = b.toNat + 256 * a.toNat by omega,
    unit16_big, unit16_big]
  rfl

private theorem encode_utf32 {order : ByteOrder} {b : Bytes} {t : Text} (h : readUnits32 order b = some t) :
    (utf32 order).encode t = b := by
  fun_induction readUnits32 order b generalizing t with
  | case1 => cases h; rfl
  | case2 a b c d r u hu =>
    rename_i ih
    obtain ⟨vs, hr, rfl⟩ := Option.map_eq_some_iff.1 h
    rw [encode_cons, ih hr]
    cases order with
    | little => rw [encodeChar, unit32_little]; rfl
    | big => rw [encodeChar, unit32_big]; rfl
  | case3 => cases h
  | case4 => cases h

/-! ### All encodings -/

/-- Encoding gives back the bytes that a text was decoded from. -/
theorem encode_of_decode? {e : Encoding} {b : Bytes} {t : Text} (h : e.decode? b = some t) : e.encode t = b := by
  cases e with
  | latin1 => cases h; exact encode_latin1 b
  | utf16 order =>
    obtain ⟨us, hus, rfl⟩ := Option.map_eq_some_iff.1 h
    rw [encode_utf16, unitsOf_joinSurrogates (lt_of_mem_readUnits16 hus), flatMap_unit16 hus]
  | utf32 order => exact encode_utf32 h

end Handout.Encoding
