import Handout.Proofs.Text.Encoding
import Handout.Tag.Parse
import Mathlib.Data.List.Chain

/-!
# Decoding undoes encoding

A text that an encoding `Represents` is read back from it: its units are the bytes taken in twos or fours, and as no
two code points are the surrogates of a pair, only the pairs that encoding has split are joined.  Whatever has been
decoded is such a text, and so is one of scalar values (`decode?_encode`).

A file in a wide encoding that starts with U+FEFF is recognized by this mark (`decode_marked`).  The one danger is
UTF-16, little end first, with U+0000 behind the mark, which is the mark of UTF-32.  ASCII without U+0000 has neither
a mark nor a zero byte, so it is taken byte by byte (`decode_ascii`).
-/

namespace Handout

/-- A scalar value of Unicode: a code point that is no surrogate. -/
def Text.IsScalar (c : Nat) : Prop := c ≤ 0x10FFFF ∧ ¬ (0xD800 ≤ c ∧ c ≤ 0xDFFF)

instance : DecidablePred Text.IsScalar := fun _ => inferInstanceAs (Decidable (_ ∧ _))

namespace Encoding

open Text (IsScalar)

variable {order : ByteOrder} {t : Text}

/-! ### UTF-16 -/

private theorem readUnits16_cons {u : Nat} (hu : u < 0x10000) (order : ByteOrder) (b : Bytes) :
    readUnits16 order (unit16 order u ++ b) = (readUnits16 order b).map (u :: ·) := by
  have hlow : (UInt8.ofNat (u % 256)).toNat = u % 256 := by simp
  have hhigh : (UInt8.ofNat (u / 256)).toNat = u / 256 := by
    rw [UInt8.toNat_ofNat']
    omega
  have hunit : u % 256 + 256 * (u / 256) = u := by omega
  cases order with
  | little => simp only [unit16, List.cons_append, List.nil_append, readUnits16, hlow, hhigh, hunit]
  | big => simp only [unit16, List.cons_append, List.nil_append, readUnits16, hlow, hhigh, hunit]

private theorem readUnits16_units {us : List Nat} (h : ∀ u ∈ us, u < 0x10000) (order : ByteOrder) :
    readUnits16 order (us.flatMap (unit16 order)) = some us := by
  induction us with
  | nil => rfl
  | cons u us ih =>
    rw [List.flatMap_cons, readUnits16_cons (h u (by simp)), ih fun v hv => h v (by simp [hv])]
    rfl

theorem lt_of_mem_units16 {c u : Nat} (hc : c < 0x110000) (hu : u ∈ units16 c) : u < 0x10000 := by
  unfold units16 at hu
  split at hu
  · rw [List.mem_singleton] at hu
    omega
  · simp only [List.mem_cons, List.not_mem_nil, or_false] at hu
    omega

/-- Whether UTF-16 would read two code points as one: they are the surrogates of a pair. -/
def isPair (c d : Nat) : Bool := isHighSurrogate c && isLowSurrogate d

theorem isPair_eq_false {c d : Nat} (h : ¬ (0xD800 ≤ c ∧ c ≤ 0xDBFF) ∨ ¬ (0xDC00 ≤ d ∧ d ≤ 0xDFFF)) :
    isPair c d = false := by
  simp only [isPair, isHighSurrogate, isLowSurrogate, Bool.and_eq_false_iff, decide_eq_false_iff_not]
  omega

private theorem joinSurrogates_units16 {c : Nat} (hc : c < 0x110000) {us : List Nat}
    (h : ∀ v ∈ us.head?, isPair c v = false) : joinSurrogates (units16 c ++ us) = c :: joinSurrogates us := by
  unfold units16
  split
  · cases us with
    | nil => rfl
    | cons v us =>
      have hpair : (isHighSurrogate c && isLowSurrogate v) = false := h v rfl
      rw [List.singleton_append, joinSurrogates, hpair, if_neg Bool.false_ne_true]
  · have hpair : (isHighSurrogate (0xD800 + (c - 0x10000) / 1024) &&
        isLowSurrogate (0xDC00 + (c - 0x10000) % 1024)) = true := by
      simp only [isHighSurrogate, isLowSurrogate, Bool.and_eq_true, decide_eq_true_eq]
      omega
    have hjoin : 0x10000 + (0xD800 + (c - 0x10000) / 1024 - 0xD800) * 1024 +
        (0xDC00 + (c - 0x10000) % 1024 - 0xDC00) = c := by omega
    rw [List.cons_append, List.cons_append, List.nil_append, joinSurrogates, if_pos hpair, hjoin]

/-- The units of a text begin with those of its first character: either with the character itself, or with a
surrogate that opens a pair. -/
private theorem isPair_head_units {c : Nat} (ht : ∀ d ∈ t, d < 0x110000) (h : ∀ d ∈ t.head?, isPair c d = false) :
    ∀ v ∈ (t.flatMap units16).head?, isPair c v = false := by
  cases t with
  | nil => exact nofun
  | cons d t =>
    have hd := ht d (by simp)
    rw [List.flatMap_cons]
    unfold units16
    split
    · intro v hv
      rw [List.singleton_append, List.head?_cons, Option.mem_some_iff] at hv
      rw [← hv]
      exact h d rfl
    · intro v hv
      rw [List.cons_append, List.head?_cons, Option.mem_some_iff] at hv
      exact isPair_eq_false (by omega)

private theorem joinSurrogates_units (ht : ∀ c ∈ t, c < 0x110000) (hpairs : t.IsChain fun c d => isPair c d = false) :
    joinSurrogates (t.flatMap units16) = t := by
  induction t with
  | nil => rfl
  | cons c t ih =>
    have htail : ∀ d ∈ t, d < 0x110000 := fun d hd => ht d (List.mem_cons_of_mem _ hd)
    obtain ⟨hhead, hpairs⟩ := List.isChain_cons.1 hpairs
    rw [List.flatMap_cons, joinSurrogates_units16 (ht c List.mem_cons_self) (isPair_head_units htail hhead),
      ih htail hpairs]

private theorem decode?_utf16 (ht : ∀ c ∈ t, c < 0x110000) (hpairs : t.IsChain fun c d => isPair c d = false) :
    (utf16 order).decode? ((utf16 order).encode t) = some t := by
  have hunits : (utf16 order).encode t = (t.flatMap units16).flatMap (unit16 order) := by
    rw [List.flatMap_assoc]
    rfl
  have hlt : ∀ u ∈ t.flatMap units16, u < 0x10000 := by
    intro u hu
    obtain ⟨c, hc, hu⟩ := List.mem_flatMap.1 hu
    exact lt_of_mem_units16 (ht c hc) hu
  rw [decode?, hunits, readUnits16_units hlt, Option.map_some, joinSurrogates_units ht hpairs]

/-- Joined pairs lie beyond the basic plane, and everything else stays as it is. -/
private theorem head_joinSurrogates {u c : Nat} {us : List Nat} (h : c ∈ (joinSurrogates (u :: us)).head?) :
    c = u ∨ 0x10000 ≤ c := by
  cases us with
  | nil =>
    rw [joinSurrogates, List.head?_cons, Option.mem_some_iff] at h
    exact .inl h.symm
  | cons v us =>
    rw [joinSurrogates] at h
    split at h
    · rw [List.head?_cons, Option.mem_some_iff] at h
      omega
    · rw [List.head?_cons, Option.mem_some_iff] at h
      exact .inl h.symm

/-- After joining, no two code points are the surrogates of a pair. -/
private theorem isChain_joinSurrogates (us : List Nat) : (joinSurrogates us).IsChain fun c d => isPair c d = false := by
  induction us using joinSurrogates.induct with
  | case1 => exact List.isChain_nil
  | case2 u => exact List.isChain_singleton u
  | case3 u v r hpair ih =>
    rw [joinSurrogates, if_pos hpair]
    refine ih.cons fun d _ => isPair_eq_false (.inl ?_)
    omega
  | case4 u v r hpair ih =>
    rw [joinSurrogates, if_neg hpair]
    refine ih.cons fun d hd => ?_
    rcases head_joinSurrogates hd with rfl | hd
    · exact Bool.not_eq_true _ ▸ hpair
    · exact isPair_eq_false (.inr (by omega))

private theorem lt_of_mem_joinSurrogates {us : List Nat} (h : ∀ u ∈ us, u < 0x10000) :
    ∀ c ∈ joinSurrogates us, c < 0x110000 := by
  induction us using joinSurrogates.induct with
  | case1 => exact List.forall_mem_nil _
  | case2 u =>
    have hu := h u (by simp)
    simpa [joinSurrogates] using (by omega : u < 0x110000)
  | case3 u v r hpair ih =>
    rw [joinSurrogates, if_pos hpair]
    simp only [isHighSurrogate, isLowSurrogate, Bool.and_eq_true, decide_eq_true_eq] at hpair
    refine List.forall_mem_cons.2 ⟨by omega, ih fun w hw => h w ?_⟩
    exact List.mem_cons_of_mem _ (List.mem_cons_of_mem _ hw)
  | case4 u v r hpair ih =>
    have hu := h u (by simp)
    rw [joinSurrogates, if_neg hpair]
    exact List.forall_mem_cons.2 ⟨by omega, ih fun w hw => h w (List.mem_cons_of_mem _ hw)⟩

/-! ### UTF-32 -/

private theorem readUnits32_cons {c : Nat} (hc : c < 0x110000) (order : ByteOrder) (b : Bytes) :
    readUnits32 order (unit32 order c ++ b) = (readUnits32 order b).map (c :: ·) := by
  have hmax : c ≤ 0x10FFFF := by omega
  have h0 : (UInt8.ofNat (c % 65536 % 256)).toNat = c % 256 := by
    rw [UInt8.toNat_ofNat']
    omega
  have h1 : (UInt8.ofNat (c % 65536 / 256)).toNat = c / 256 % 256 := by
    rw [UInt8.toNat_ofNat']
    omega
  have h2 : (UInt8.ofNat (c / 65536 % 256)).toNat = c / 65536 := by
    rw [UInt8.toNat_ofNat']
    omega
  have h3 : (UInt8.ofNat (c / 65536 / 256)).toNat = 0 := by
    rw [UInt8.toNat_ofNat']
    omega
  have hunit : c % 256 + 256 * (c / 256 % 256) + 65536 * (c / 65536 + 256 * 0) = c := by omega
  cases order with
  | little =>
    simp only [unit32, unit16, List.cons_append, List.nil_append, readUnits32, h0, h1, h2, h3, hunit, if_pos hmax]
  | big =>
    simp only [unit32, unit16, List.cons_append, List.nil_append, readUnits32, h0, h1, h2, h3, hunit, if_pos hmax]

private theorem decode?_utf32 (h : ∀ c ∈ t, c < 0x110000) : (utf32 order).decode? ((utf32 order).encode t) = some t := by
  induction t with
  | nil => rfl
  | cons c t ih =>
    have hrest := ih fun d hd => h d (by simp [hd])
    rw [decode?] at hrest ⊢
    rw [encode_cons, encodeChar, readUnits32_cons (h c (by simp)), hrest]
    rfl

private theorem lt_of_mem_readUnits32 {b : Bytes} (h : readUnits32 order b = some t) : ∀ c ∈ t, c < 0x110000 := by
  fun_induction readUnits32 order b generalizing t with
  | case1 => cases h; exact List.forall_mem_nil _
  | case2 a b c d r u hu =>
    rename_i ih
    obtain ⟨rest, hrest, rfl⟩ := Option.map_eq_some_iff.1 h
    exact List.forall_mem_cons.2 ⟨by omega, ih hrest⟩
  | case3 => cases h
  | case4 => cases h

/-! ### All encodings -/

/-- The code points of an encoding lie below this. -/
def limit : Encoding → Nat
  | latin1 => 0x100
  | utf16 _ | utf32 _ => 0x110000

/-- A text that is read back from an encoding: there are no code points beyond those of the encoding, and in UTF-16
no two of them are the surrogates of a pair. -/
structure Represents (e : Encoding) (t : Text) : Prop where
  bounded : ∀ c ∈ t, c < e.limit
  unpaired : ∀ order, e = utf16 order → t.IsChain fun c d => isPair c d = false

variable {e : Encoding} {u : Text}

/-- A text of bytes is read back from Latin-1. -/
theorem decode?_latin1 (h : ∀ c ∈ t, c < 256) : latin1.decode? (latin1.encode t) = some t := by
  have hmap : (latin1.encode t).map UInt8.toNat = t := by
    induction t with
    | nil => rfl
    | cons c t ih =>
      have hc : c < 256 := h c (by simp)
      rw [encode_cons, List.map_append, ih fun d hd => h d (by simp [hd]), encodeChar, List.map_singleton,
        UInt8.toNat_ofNat', Nat.mod_eq_of_lt hc]
      rfl
  rw [decode?, hmap]

theorem Represents.decode?_encode (h : e.Represents t) : e.decode? (e.encode t) = some t := by
  cases e with
  | latin1 => exact decode?_latin1 h.bounded
  | utf16 order => exact decode?_utf16 h.bounded (h.unpaired order rfl)
  | utf32 order => exact decode?_utf32 h.bounded

/-- An encoding represents what is decoded from it. -/
theorem represents_of_decode? {b : Bytes} (h : e.decode? b = some t) : e.Represents t := by
  cases e with
  | latin1 =>
    cases h
    refine ⟨fun c hc => ?_, nofun⟩
    obtain ⟨x, -, rfl⟩ := List.mem_map.1 hc
    exact x.toNat_lt
  | utf16 order =>
    obtain ⟨us, hus, rfl⟩ := Option.map_eq_some_iff.1 h
    exact ⟨lt_of_mem_joinSurrogates (lt_of_mem_readUnits16 hus), fun _ _ => isChain_joinSurrogates us⟩
  | utf32 order => exact ⟨lt_of_mem_readUnits32 h, nofun⟩

theorem Represents.of_piece (h : e.Represents t) (hu : u <:+: t) : e.Represents u :=
  ⟨fun c hc => h.bounded c (hu.subset hc), fun order he => List.IsChain.infix (h.unpaired order he) hu⟩

/-- Texts may be put together where their ends are no pair. -/
theorem Represents.append (h : e.Represents t) (hu : e.Represents u)
    (hjoin : ∀ c ∈ t.getLast?, ∀ d ∈ u.head?, isPair c d = false) : e.Represents (t ++ u) := by
  refine ⟨fun c hc => ?_, fun order he => (h.unpaired order he).append (hu.unpaired order he) hjoin⟩
  exact (List.mem_append.1 hc).elim (h.bounded c) (hu.bounded c)

/-- A wide encoding represents a text of scalar values. -/
theorem represents_of_scalar (he : e ≠ latin1) (h : ∀ c ∈ t, IsScalar c) : e.Represents t := by
  have hlimit : e.limit = 0x110000 := by
    cases e with
    | latin1 => exact absurd rfl he
    | utf16 order => rfl
    | utf32 order => rfl
  refine ⟨fun c hc => ?_, fun _ _ => List.isChain_iff_forall_rel_of_append_cons_cons.2 fun {c d first rest} ht => ?_⟩
  · have := (h c hc).1
    omega
  · have hc := (h c (by rw [ht]; simp)).2
    exact isPair_eq_false (by omega)

/-- A text of scalar values is read back from a wide encoding. -/
theorem decode?_encode (he : e ≠ latin1) (h : ∀ c ∈ t, IsScalar c) : e.decode? (e.encode t) = some t :=
  (represents_of_scalar he h).decode?_encode

end Encoding

/-! ### Marks -/

open Encoding Text

variable {e : Encoding} {t : Text}

/-- Two zero bytes begin no text in UTF-16 that does not begin with U+0000. -/
private theorem not_zeros_prefix (h : ∀ c ∈ t, IsScalar c) (h0 : t.head? ≠ some 0) :
    List.isPrefixOf [0, 0] ((utf16 .little).encode t) = false := by
  cases t with
  | nil => rfl
  | cons c t =>
    have hc := h c (by simp)
    have hne : c ≠ 0 := fun h => h0 (by rw [h]; rfl)
    obtain ⟨u, us, hunits, hpos⟩ : ∃ u us, units16 c = u :: us ∧ 0 < u := by
      unfold units16
      split
      · exact ⟨c, [], rfl, by omega⟩
      · exact ⟨_, _, rfl, by omega⟩
    have hlt : u < 0x10000 := lt_of_mem_units16 (Nat.lt_succ_of_le hc.1) (by rw [hunits]; exact List.mem_cons_self)
    have hbyte : ∀ n < 256, (0 == UInt8.ofNat n) = true → n = 0 := by
      intro n hn hzero
      have := congrArg UInt8.toNat (beq_iff_eq.1 hzero)
      rw [UInt8.toNat_ofNat', Nat.mod_eq_of_lt hn] at this
      exact this.symm
    rw [encode_cons, encodeChar, hunits, Bool.eq_false_iff]
    intro hzeros
    simp only [List.flatMap_cons, unit16, List.cons_append, List.nil_append, List.isPrefixOf, Bool.and_true,
      Bool.and_eq_true] at hzeros
    have hlow := hbyte (u % 256) (by omega) hzeros.1
    have hhigh := hbyte (u / 256) (by omega) hzeros.2
    omega

private theorem mark?_marked (he : e ≠ latin1) (h : ∀ c ∈ t, IsScalar c) (h0 : t.head? ≠ some 0) :
    Detection.mark? (e.encode (0xFEFF :: t)) = some (e.encode [0xFEFF], e) := by
  match e with
  | latin1 => exact absurd rfl he
  | utf32 .little => rfl
  | utf32 .big => rfl
  | utf16 .big => rfl
  | utf16 .little =>
    -- the mark of UTF-32 is tried first
    have hlong : List.isPrefixOf [0xFF, 0xFE, 0, 0] ((utf16 .little).encode (0xFEFF :: t)) = false :=
      not_zeros_prefix h h0
    rw [Detection.mark?, Detection.byteOrderMarks, List.find?_cons_of_neg (by rw [hlong]; exact Bool.false_ne_true)]
    rfl

/-- A marked text in a wide encoding is decoded as such. -/
theorem decode_marked (he : e ≠ latin1) (h : ∀ c ∈ t, IsScalar c) (h0 : t.head? ≠ some 0) :
    decode (e.encode (0xFEFF :: t)) = ⟨e.encode [0xFEFF], e, t⟩ := by
  have hmark : Detection.wideEncoding? (e.encode (0xFEFF :: t)) = some (e.encode [0xFEFF], e) := by
    rw [Detection.wideEncoding?, mark?_marked he h h0]
  have hdrop : (e.encode (0xFEFF :: t)).drop (e.encode [0xFEFF]).length = e.encode t := by
    rw [show (0xFEFF :: t : Text) = [0xFEFF] ++ t from rfl, encode_append, List.drop_left]
  rw [decode, hmark]
  simp only [hdrop, decode?_encode he h]

/-- Data without zero bytes and without a byte order mark is read byte by byte. -/
theorem decode_narrow {data : Bytes} (hzero : 0 ∉ data) (hmark : Detection.mark? data = none) :
    decode data = ⟨[], latin1, data.map UInt8.toNat⟩ := by
  have hcontains : data.contains 0 = false := by
    rwa [List.contains_eq_mem, decide_eq_false_iff_not]
  rw [decode, Detection.wideEncoding?, hmark, hcontains]
  rfl

/-- ASCII without U+0000 is read byte by byte. -/
theorem decode_ascii (h : ∀ c ∈ t, 0 < c ∧ c < 128) : decode (latin1.encode t) = ⟨[], latin1, t⟩ := by
  have hbytes : ∀ b ∈ latin1.encode t, 0 < b.toNat ∧ b.toNat < 128 := by
    intro b hb
    obtain ⟨c, hc, hb⟩ := List.mem_flatMap.1 hb
    rw [encodeChar, List.mem_singleton] at hb
    have := h c hc
    rw [hb, UInt8.toNat_ofNat', Nat.mod_eq_of_lt (by omega)]
    exact this
  have hmark : Detection.mark? (latin1.encode t) = none := by
    -- every mark begins with a zero byte or one beyond ASCII
    cases hdata : latin1.encode t with
    | nil => rfl
    | cons b r =>
      have hb := hbytes b (by rw [hdata]; simp)
      have hne : ∀ x : UInt8, x.toNat = 0 ∨ 128 ≤ x.toNat → (x == b) = false := by
        intro x hx
        rw [beq_eq_false_iff_ne]
        rintro rfl
        omega
      simp [Detection.mark?, Detection.byteOrderMarks, List.isPrefixOf, hne 0xFF (by decide), hne 0xFE (by decide),
        hne 0 (by decide)]
  have hzero : 0 ∉ latin1.encode t := fun hmem => absurd (hbytes 0 hmem).1 (by decide)
  have htext : (latin1.encode t).map UInt8.toNat = t := by
    have := decode?_latin1 (t := t) fun c hc => by have := h c hc; omega
    exact Option.some.inj this
  rw [decode_narrow hzero hmark, htext]

end Handout
