import TreeGlob.Text.Utf8

/-!
UTF-8 loses nothing: reading the bytes of a text gives back the text, and bytes that can be read are
the bytes of what was read. So a name that is text is named by one text only, and a text names one
entry only.

* `decode?_encode` and `encode_of_decode?` are the two directions; both are told character by
  character, by `readChar_encodeChar` and `encodeChar_of_readChar`.
-/
namespace TreeGlob.Utf8

theorem toNat_bounds (c : Char) : c.toNat < 0xD800 ∨ 0xDFFF < c.toNat ∧ c.toNat < 0x110000 := c.valid

theorem toNat_ofNat_byte {n : Nat} (h : n < 256) : (UInt8.ofNat n).toNat = n := by
  simp [Nat.mod_eq_of_lt h]

/-! ## Reading what was written -/

theorem takeTrailing_zero (code : Nat) (bounds : Nat × Nat) (bs : Bytes) :
    takeTrailing code bounds 0 bs = (some code, 0) := rfl

theorem eq_of_takeTrailing_zero {code n taken : Nat} {bounds : Nat × Nat} {bs : Bytes}
    (h : takeTrailing code bounds 0 bs = (some n, taken)) : n = code ∧ taken = 0 := by
  rw [takeTrailing_zero] at h
  exact ⟨(Option.some.inj (Prod.mk.inj h).1).symm, (Prod.mk.inj h).2.symm⟩

theorem takeTrailing_cons {bounds : Nat × Nat} {b : UInt8}
    (h : bounds.1 ≤ b.toNat ∧ b.toNat ≤ bounds.2) (code more : Nat) (rest : Bytes) :
    takeTrailing code bounds (more + 1) (b :: rest) =
      let next := takeTrailing (code * 64 + (b.toNat - 0x80)) (0x80, 0xBF) more rest
      (next.1, next.2 + 1) := by
  rw [takeTrailing, if_pos h]

theorem readChar_of_takeTrailing {a : UInt8} {rest : Bytes} {more code taken : Nat}
    (ht : trailing a.toNat = some more)
    (h : takeTrailing (leadBits a.toNat more) (secondByte a.toNat) more rest = (some code, taken)) :
    readChar a rest = (some (Char.ofNat code), taken) := by
  unfold readChar
  rewrite [ht]
  dsimp only
  rewrite [h]
  exact congrArg (·, taken) (Option.map_some ..)

theorem readChar_two {a b : UInt8} (ha : 0xC2 ≤ a.toNat ∧ a.toNat ≤ 0xDF)
    (hb : 0x80 ≤ b.toNat ∧ b.toNat ≤ 0xBF) (rest : Bytes) :
    readChar a (b :: rest) = (some (Char.ofNat ((a.toNat - 0xC0) * 64 + (b.toNat - 0x80))), 1) := by
  have ht : trailing a.toNat = some 1 := by
    unfold trailing
    rw [if_neg (by omega), if_pos ha]
  have hs : secondByte a.toNat = (0x80, 0xBF) := by
    unfold secondByte
    rw [if_neg (by omega), if_neg (by omega), if_neg (by omega), if_neg (by omega)]
  refine readChar_of_takeTrailing ht ?_
  rw [hs, takeTrailing_cons hb, takeTrailing_zero]
  rfl

theorem readChar_three {a b c : UInt8} (ha : 0xE0 ≤ a.toNat ∧ a.toNat ≤ 0xEF)
    (hb : (secondByte a.toNat).1 ≤ b.toNat ∧ b.toNat ≤ (secondByte a.toNat).2)
    (hc : 0x80 ≤ c.toNat ∧ c.toNat ≤ 0xBF) (rest : Bytes) :
    readChar a (b :: c :: rest) = (some (Char.ofNat
      (((a.toNat - 0xE0) * 64 + (b.toNat - 0x80)) * 64 + (c.toNat - 0x80))), 2) := by
  have ht : trailing a.toNat = some 2 := by
    unfold trailing
    rw [if_neg (by omega), if_neg (by omega), if_pos ha]
  refine readChar_of_takeTrailing ht ?_
  rw [takeTrailing_cons hb, takeTrailing_cons hc, takeTrailing_zero]
  rfl

theorem readChar_four {a b c e : UInt8} (ha : 0xF0 ≤ a.toNat ∧ a.toNat ≤ 0xF4)
    (hb : (secondByte a.toNat).1 ≤ b.toNat ∧ b.toNat ≤ (secondByte a.toNat).2)
    (hc : 0x80 ≤ c.toNat ∧ c.toNat ≤ 0xBF) (he : 0x80 ≤ e.toNat ∧ e.toNat ≤ 0xBF) (rest : Bytes) :
    readChar a (b :: c :: e :: rest) = (some (Char.ofNat
      ((((a.toNat - 0xF0) * 64 + (b.toNat - 0x80)) * 64 + (c.toNat - 0x80)) * 64 +
        (e.toNat - 0x80))), 3) := by
  have ht : trailing a.toNat = some 3 := by
    unfold trailing
    rw [if_neg (by omega), if_neg (by omega), if_neg (by omega), if_pos ha]
  refine readChar_of_takeTrailing ht ?_
  rw [takeTrailing_cons hb, takeTrailing_cons hc, takeTrailing_cons he, takeTrailing_zero]
  rfl

theorem readChar_encodeChar (c : Char) (rest : Bytes) :
    ∃ b tail, encodeChar c = b :: tail ∧ readChar b (tail ++ rest) = (some c, tail.length) := by
  obtain ⟨n, hn⟩ : ∃ n, c.toNat = n := ⟨_, rfl⟩
  have hc : Char.ofNat n = c := hn ▸ Char.ofNat_toNat c
  have hv := toNat_bounds c
  simp only [encodeChar, hn]
  rw [hn] at hv
  -- One case for each length of the encoding, with bytes in the ranges that the reader allows.
  split
  · next h1 =>
    have ha : (UInt8.ofNat n).toNat = n := toNat_ofNat_byte (by omega)
    exact ⟨_, [], rfl, by rw [List.nil_append, readChar_ascii (by omega), ha, hc]; rfl⟩
  split
  · next h1 h2 =>
    have ha : (UInt8.ofNat (0xC0 + n / 64)).toNat = 0xC0 + n / 64 := toNat_ofNat_byte (by omega)
    have hb : (UInt8.ofNat (0x80 + n % 64)).toNat = 0x80 + n % 64 := toNat_ofNat_byte (by omega)
    refine ⟨_, [_], rfl, (readChar_two (by omega) (by omega) rest).trans ?_⟩
    rw [ha, hb, show (0xC0 + n / 64 - 0xC0) * 64 + (0x80 + n % 64 - 0x80) = n by omega, hc]
    rfl
  split
  · next h1 h2 h3 =>
    have ha : (UInt8.ofNat (0xE0 + n / 4096)).toNat = 0xE0 + n / 4096 := toNat_ofNat_byte (by omega)
    have hb : (UInt8.ofNat (0x80 + n / 64 % 64)).toNat = 0x80 + n / 64 % 64 :=
      toNat_ofNat_byte (by omega)
    have he : (UInt8.ofNat (0x80 + n % 64)).toNat = 0x80 + n % 64 := toNat_ofNat_byte (by omega)
    refine ⟨_, [_, _], rfl, (readChar_three (by omega) ?_ (by omega) rest).trans ?_⟩
    · rw [ha, hb]
      unfold secondByte
      grind
    · rw [ha, hb, he, show ((0xE0 + n / 4096 - 0xE0) * 64 + (0x80 + n / 64 % 64 - 0x80)) * 64 +
        (0x80 + n % 64 - 0x80) = n by omega, hc]
      rfl
  · next h1 h2 h3 =>
    have ha : (UInt8.ofNat (0xF0 + n / 262144)).toNat = 0xF0 + n / 262144 :=
      toNat_ofNat_byte (by omega)
    have hb : (UInt8.ofNat (0x80 + n / 4096 % 64)).toNat = 0x80 + n / 4096 % 64 :=
      toNat_ofNat_byte (by omega)
    have he : (UInt8.ofNat (0x80 + n / 64 % 64)).toNat = 0x80 + n / 64 % 64 :=
      toNat_ofNat_byte (by omega)
    have hf : (UInt8.ofNat (0x80 + n % 64)).toNat = 0x80 + n % 64 := toNat_ofNat_byte (by omega)
    refine ⟨_, [_, _, _], rfl, (readChar_four (by omega) ?_ (by omega) (by omega) rest).trans ?_⟩
    · rw [ha, hb]
      unfold secondByte
      grind
    · rw [ha, hb, he, hf, show (((0xF0 + n / 262144 - 0xF0) * 64 + (0x80 + n / 4096 % 64 - 0x80)) * 64 +
        (0x80 + n / 64 % 64 - 0x80)) * 64 + (0x80 + n % 64 - 0x80) = n by omega, hc]
      rfl

theorem units_append (bs rest : Bytes) : units bs.length (bs ++ rest) = units 0 rest := by
  induction bs with
  | nil => rfl
  | cons b bs ih => simpa [units] using ih

/-- Whatever comes after the bytes of a text, they are read as that text. -/
theorem units_encode_append (t : Text) (rest : Bytes) :
    units 0 (encode t ++ rest) = t.map some ++ units 0 rest := by
  induction t with
  | nil => rfl
  | cons c t ih =>
    obtain ⟨b, tail, hb, hr⟩ := readChar_encodeChar c (encode t ++ rest)
    have he : encode (c :: t) ++ rest = b :: (tail ++ (encode t ++ rest)) := by
      simp only [encode, List.flatMap_cons, hb, List.cons_append, List.append_assoc]
    rw [he, units, hr, units_append, ih]
    rfl

theorem units_encode (t : Text) : units 0 (encode t) = t.map some := by
  simpa [units] using units_encode_append t []

theorem decode?_encode (t : Text) : decode? (encode t) = some t := by
  rw [decode?, units_encode]
  induction t with
  | nil => rfl
  | cons c t ih => simp_all

theorem encode_injective {s t : Text} (h : encode s = encode t) : s = t :=
  Option.some.inj (by rw [← decode?_encode s, h, decode?_encode t])

/-! ## Writing what was read -/

/-- Each following byte lies between the bounds for continuations and adds its bits. -/
theorem takeTrailing_eq {code : Nat} {bounds : Nat × Nat} {more : Nat} {bs : Bytes} {found taken : Nat}
    (h : takeTrailing code bounds (more + 1) bs = (some found, taken)) :
    ∃ b rest taken', bs = b :: rest ∧ taken = taken' + 1 ∧ bounds.1 ≤ b.toNat ∧ b.toNat ≤ bounds.2 ∧
      takeTrailing (code * 64 + (b.toNat - 0x80)) (0x80, 0xBF) more rest = (some found, taken') := by
  cases bs with
  | nil => simp [takeTrailing] at h
  | cons b rest =>
    simp only [takeTrailing] at h
    split at h
    · next hb =>
      obtain ⟨h1, h2⟩ := Prod.mk.inj h
      exact ⟨b, rest, _, rfl, h2.symm, hb.1, hb.2, Prod.ext h1 rfl⟩
    · simp at h

theorem toNat_ofNat_code {n : Nat} (h : n < 0xD800 ∨ 0xDFFF < n ∧ n < 0x110000) :
    (Char.ofNat n).toNat = n := by
  have hv : n.isValidChar := h
  unfold Char.ofNat
  rw [dif_pos hv]
  exact UInt32.toNat_ofNatLT ..

theorem encodeChar_two {n : Nat} (h : 0x80 ≤ n ∧ n < 0x800) :
    encodeChar (Char.ofNat n) = [.ofNat (0xC0 + n / 64), .ofNat (0x80 + n % 64)] := by
  unfold encodeChar
  rewrite [toNat_ofNat_code (by omega)]
  dsimp only
  rw [if_neg (by omega), if_pos (by omega)]

theorem encodeChar_three {n : Nat} (h : 0x800 ≤ n ∧ n < 0x10000) (hv : n < 0xD800 ∨ 0xDFFF < n) :
    encodeChar (Char.ofNat n) =
      [.ofNat (0xE0 + n / 4096), .ofNat (0x80 + n / 64 % 64), .ofNat (0x80 + n % 64)] := by
  unfold encodeChar
  rewrite [toNat_ofNat_code (by omega)]
  dsimp only
  rw [if_neg (by omega), if_neg (by omega), if_pos (by omega)]

theorem encodeChar_four {n : Nat} (h : 0x10000 ≤ n ∧ n < 0x110000) :
    encodeChar (Char.ofNat n) = [.ofNat (0xF0 + n / 262144), .ofNat (0x80 + n / 4096 % 64),
      .ofNat (0x80 + n / 64 % 64), .ofNat (0x80 + n % 64)] := by
  unfold encodeChar
  rewrite [toNat_ofNat_code (by omega)]
  dsimp only
  rw [if_neg (by omega), if_neg (by omega), if_neg (by omega)]

theorem ofNat_eq_byte {n : Nat} {b : UInt8} (h : n = b.toNat) : UInt8.ofNat n = b := by
  rw [h, UInt8.ofNat_toNat]

theorem encodeChar_of_readChar {a : UInt8} {rest : Bytes} {c : Char} {taken : Nat}
    (h : readChar a rest = (some c, taken)) :
    ∃ tail left, rest = tail ++ left ∧ taken = tail.length ∧ encodeChar c = a :: tail := by
  unfold readChar at h
  split at h
  · simp at h
  next more hm =>
  obtain ⟨h1, h2⟩ := Prod.mk.inj h
  obtain ⟨n, hn, rfl⟩ := Option.map_eq_some_iff.mp h1
  have ht := Prod.ext (x := takeTrailing (leadBits a.toNat more) (secondByte a.toNat) more rest)
    (y := (some n, taken)) hn h2
  clear h h1 h2 hn
  -- One case for each number of bytes that the first one announces.
  unfold trailing at hm
  split at hm
  · next hlt =>
    obtain rfl := Option.some.inj hm
    obtain ⟨hn, rfl⟩ := eq_of_takeTrailing_zero ht
    have hn : n = a.toNat := hn
    refine ⟨[], rest, rfl, rfl, ?_⟩
    unfold encodeChar
    rewrite [toNat_ofNat_code (by omega)]
    dsimp only
    rw [if_pos (by omega), ofNat_eq_byte hn]
  split at hm
  · next hlt =>
    obtain rfl := Option.some.inj hm
    obtain ⟨b, left, _, rfl, rfl, hl, hu, ht⟩ := takeTrailing_eq ht
    obtain ⟨hn, rfl⟩ := eq_of_takeTrailing_zero ht
    have hn : n = (a.toNat - 0xC0) * 64 + (b.toNat - 0x80) := hn
    have hs : secondByte a.toNat = (0x80, 0xBF) := by
      unfold secondByte
      rw [if_neg (by omega), if_neg (by omega), if_neg (by omega), if_neg (by omega)]
    simp only [hs] at hl hu
    refine ⟨[b], left, rfl, rfl, ?_⟩
    rw [encodeChar_two (by omega), ofNat_eq_byte (b := a) (by omega), ofNat_eq_byte (b := b) (by omega)]
  split at hm
  · next hlt =>
    obtain rfl := Option.some.inj hm
    obtain ⟨b, left, _, rfl, rfl, hl, hu, ht⟩ := takeTrailing_eq ht
    obtain ⟨c, left, _, rfl, rfl, hl', hu', ht⟩ := takeTrailing_eq ht
    obtain ⟨hn, rfl⟩ := eq_of_takeTrailing_zero ht
    have hn : n = ((a.toNat - 0xE0) * 64 + (b.toNat - 0x80)) * 64 + (c.toNat - 0x80) := hn
    have hs : a.toNat = 0xE0 ∧ 0xA0 ≤ b.toNat ∧ b.toNat ≤ 0xBF ∨
        a.toNat = 0xED ∧ 0x80 ≤ b.toNat ∧ b.toNat ≤ 0x9F ∨
        a.toNat ≠ 0xE0 ∧ a.toNat ≠ 0xED ∧ 0x80 ≤ b.toNat ∧ b.toNat ≤ 0xBF := by
      unfold secondByte at hl hu
      grind
    simp only at hl' hu'
    clear hl hu
    refine ⟨[b, c], left, rfl, rfl, ?_⟩
    rw [encodeChar_three (by omega) (by omega), ofNat_eq_byte (b := a) (by omega),
      ofNat_eq_byte (b := b) (by omega), ofNat_eq_byte (b := c) (by omega)]
  split at hm
  · next hlt =>
    obtain rfl := Option.some.inj hm
    obtain ⟨b, left, _, rfl, rfl, hl, hu, ht⟩ := takeTrailing_eq ht
    obtain ⟨c, left, _, rfl, rfl, hl', hu', ht⟩ := takeTrailing_eq ht
    obtain ⟨e, left, _, rfl, rfl, hl'', hu'', ht⟩ := takeTrailing_eq ht
    obtain ⟨hn, rfl⟩ := eq_of_takeTrailing_zero ht
    have hn : n = (((a.toNat - 0xF0) * 64 + (b.toNat - 0x80)) * 64 + (c.toNat - 0x80)) * 64 +
        (e.toNat - 0x80) := hn
    have hs : a.toNat = 0xF0 ∧ 0x90 ≤ b.toNat ∧ b.toNat ≤ 0xBF ∨
        a.toNat = 0xF4 ∧ 0x80 ≤ b.toNat ∧ b.toNat ≤ 0x8F ∨
        a.toNat ≠ 0xF0 ∧ a.toNat ≠ 0xF4 ∧ 0x80 ≤ b.toNat ∧ b.toNat ≤ 0xBF := by
      unfold secondByte at hl hu
      grind
    simp only at hl' hu' hl'' hu''
    clear hl hu
    refine ⟨[b, c, e], left, rfl, rfl, ?_⟩
    rw [encodeChar_four (by omega), ofNat_eq_byte (b := a) (by omega),
      ofNat_eq_byte (b := b) (by omega), ofNat_eq_byte (b := c) (by omega),
      ofNat_eq_byte (b := e) (by omega)]
  · simp at hm

theorem units_of_decode? {bs : Bytes} {t : Text} (h : decode? bs = some t) :
    units 0 bs = t.map some := by
  unfold decode? at h
  generalize units 0 bs = us at h
  induction us generalizing t with
  | nil =>
    obtain rfl : t = [] := by simpa using h.symm
    rfl
  | cons u us ih =>
    cases u with
    | none => simp at h
    | some c =>
      simp only [List.mapM_cons, id_eq, Option.bind_eq_bind, Option.bind_some, Option.pure_def,
        Option.bind_eq_some_iff, Option.some.injEq] at h
      obtain ⟨t, ht, rfl⟩ := h
      rw [ih ht, List.map_cons]

theorem encode_of_decode? {bs : Bytes} {t : Text} (h : decode? bs = some t) : encode t = bs := by
  have hu := units_of_decode? h
  clear h
  induction t generalizing bs with
  | nil =>
    cases bs with
    | nil => rfl
    | cons b rest => simp [units] at hu
  | cons c t ih =>
    cases bs with
    | nil => simp [units] at hu
    | cons b rest =>
      rw [units, List.map_cons] at hu
      obtain ⟨hc, hrest⟩ := List.cons.inj hu
      generalize hk : (readChar b rest).2 = taken at hrest
      obtain ⟨tail, left, rfl, rfl, he⟩ := encodeChar_of_readChar (Prod.ext hc hk)
      rw [units_append] at hrest
      rw [encode, List.flatMap_cons, he, List.cons_append]
      exact congrArg (b :: tail ++ ·) (ih hrest)

/-! ## Single bytes -/

theorem encode_eq_nil_iff {t : Text} : encode t = [] ↔ t = [] := by
  refine ⟨?_, ?_⟩
  · intro h
    exact encode_injective (h.trans rfl)
  · rintro rfl
    rfl

theorem mem_encodeChar_ascii {b : UInt8} {c : Char} (hb : b.toNat < 0x80) :
    b ∈ encodeChar c ↔ c.toNat = b.toNat := by
  have hv := toNat_bounds c
  have key : ∀ {n : Nat}, n < 256 → (b = UInt8.ofNat n ↔ b.toNat = n) := by
    intro n hn
    rw [← UInt8.toNat_inj, toNat_ofNat_byte hn]
  unfold encodeChar
  dsimp only
  generalize c.toNat = n at hv
  split
  · rw [List.mem_singleton, key (by omega), eq_comm]
  split
  · rw [List.mem_cons, List.mem_singleton, key (by omega), key (by omega)]
    omega
  split
  · rw [List.mem_cons, List.mem_cons, List.mem_singleton, key (by omega), key (by omega),
      key (by omega)]
    omega
  · rw [List.mem_cons, List.mem_cons, List.mem_cons, List.mem_singleton, key (by omega),
      key (by omega), key (by omega), key (by omega)]
    omega

theorem mem_encode_ascii {c : Char} {t : Text} {b : UInt8} (hc : c.toNat = b.toNat)
    (hb : b.toNat < 0x80) : b ∈ encode t ↔ c ∈ t := by
  rw [encode, List.mem_flatMap]
  refine ⟨?_, ?_⟩
  · intro hyp
    obtain ⟨a, ha, hm⟩ := hyp
    have hn : a.toNat = c.toNat := hc ▸ (mem_encodeChar_ascii hb).mp hm
    exact Char.toNat_inj.mp hn ▸ ha
  · intro h
    exact ⟨c, h, (mem_encodeChar_ascii hb).mpr hc⟩

end TreeGlob.Utf8
