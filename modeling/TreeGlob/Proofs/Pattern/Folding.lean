import TreeGlob.Proofs.Pattern.Language
import TreeGlob.Proofs.Text.RoundTrip
import TreeGlob.Proofs.Unicode.CasePairs

/-!
Whether a character of a pattern may as well be written as a bracket expression that holds nothing
else. Where case does not count, a literal character is compared by lower case images, while a bracket
expression is asked for the character of the path and for all of its images, lower and upper.

* `Unicode.CaseTables.toLower_eq_iff_mem_iff` puts both questions to the tables of code points.
* `sameChar_eq_accepts_iff` says for which characters they have the same answer about all others.
* `Segment.matchAll_replace` and `Segment.mayExtend_replace` say that one segment may stand for another
  in any pattern if it may at the front.
* `Pattern.literal_eq_bracket_iff` is the main result.
-/
namespace TreeGlob

namespace Unicode

/-! ## Images of characters and of code points -/

section Images

variable {l m : List Nat} {x c : Char}

theorem mem_map_ofNat_iff (hl : ∀ n ∈ l, n.isValidChar) : x ∈ l.map Char.ofNat ↔ x.toNat ∈ l := by
  constructor
  · intro h
    obtain ⟨n, hn, rfl⟩ := List.mem_map.mp h
    rwa [Utf8.toNat_ofNat_code (hl n hn)]
  · intro h
    exact List.mem_map.mpr ⟨x.toNat, h, Char.ofNat_toNat x⟩

theorem map_ofNat_inj (hl : ∀ n ∈ l, n.isValidChar) (hm : ∀ n ∈ m, n.isValidChar) :
    l.map Char.ofNat = m.map Char.ofNat ↔ l = m := by
  have hback : ∀ k : List Nat, (∀ n ∈ k, n.isValidChar) →
      (k.map Char.ofNat).map Char.toNat = k := by
    intro k hk
    rw [List.map_map]
    refine (List.map_congr_left ?_).trans (List.map_id k)
    intro n hn
    exact Utf8.toNat_ofNat_code (hk n hn)
  constructor
  · intro h
    rw [← hback l hl, h, hback m hm]
  · intro h
    rw [h]

theorem CaseTables.mem_toLower_iff (tables : CaseTables) :
    x ∈ toLower c ↔ x.toNat ∈ lowerCodes c.toNat := by
  rw [tables.toLower_eq_codes]
  exact mem_map_ofNat_iff fun _ => tables.isValidChar_of_mem_lowerCodes c.valid

theorem CaseTables.mem_toUpper_iff (tables : CaseTables) :
    x ∈ toUpper c ↔ x.toNat ∈ upperCodes c.toNat := by
  rw [tables.toUpper_eq_codes]
  exact mem_map_ofNat_iff fun _ => tables.isValidChar_of_mem_upperCodes c.valid

theorem CaseTables.toLower_eq_iff (tables : CaseTables) :
    toLower x = toLower c ↔ lowerCodes x.toNat = lowerCodes c.toNat := by
  rw [tables.toLower_eq_codes, tables.toLower_eq_codes]
  exact map_ofNat_inj (fun _ => tables.isValidChar_of_mem_lowerCodes x.valid)
    fun _ => tables.isValidChar_of_mem_lowerCodes c.valid

/-- The two ways of disregarding case agree about all other characters just if they do not part at the
character. A separator cannot tell them apart. -/
theorem CaseTables.toLower_eq_iff_mem_iff (tables : CaseTables) : (∀ c : Char, c ≠ '/' →
      (x = c ∨ toLower x = toLower c ↔ x = c ∨ x ∈ toLower c ∨ x ∈ toUpper c)) ↔
    parts x.toNat = false := by
  have hsame : ∀ c : Char, x = c ↔ x.toNat = c.toNat := fun c => Char.toNat_inj.symm
  simp only [tables.toLower_eq_iff, tables.mem_toLower_iff, tables.mem_toUpper_iff, hsame]
  constructor
  · intro hall
    rw [← Bool.not_eq_true]
    intro hx
    obtain ⟨n, hvalid, hslash, hparted⟩ := tables.exists_parted hx
    have hcode : (Char.ofNat n).toNat = n := Utf8.toNat_ofNat_code hvalid
    have hagree := hall (Char.ofNat n) fun h => hslash (by rw [← hcode, h]; rfl)
    rw [hcode] at hagree
    exact hparted hagree
  · intro hx c _
    exact tables.lowerCodes_eq_iff hx

end Images

end Unicode

/-! ## A character and its bracket expression -/

def Bracket.single (x : Char) : Bracket := ⟨[(x, x)], [], false⟩

theorem Bracket.contains_single {x c : Char} : (single x).contains c = true ↔ x = c := by
  simp only [contains, single, List.any_cons, List.any_nil, Bool.or_false, Bool.and_eq_true,
    decide_eq_true_eq]
  exact ⟨fun h => Char.le_antisymm h.1 h.2, fun h => h ▸ ⟨Char.le_refl x, Char.le_refl x⟩⟩

theorem Bracket.accepts_single_iff {caseSensitive : Bool} {x c : Char} :
    (single x).accepts caseSensitive c = true ↔ c ≠ '/' ∧
      (x = c ∨ caseSensitive = false ∧ (x ∈ Unicode.toLower c ∨ x ∈ Unicode.toUpper c)) := by
  have hany : ∀ l : List Char, l.any (single x).contains = true ↔ x ∈ l := by
    intro l
    simp only [List.any_eq_true, contains_single, exists_eq_right']
  have hnegated : (single x).negated = false := rfl
  simp only [accepts, hit, hnegated, Bool.bne_false, Bool.and_eq_true, Bool.or_eq_true,
    decide_eq_true_eq, contains_single, hany, Bool.not_eq_true']

theorem sameChar_eq_true_iff {caseSensitive : Bool} {x c : Char} :
    sameChar caseSensitive x c = true ↔
      x = c ∨ caseSensitive = false ∧ Unicode.toLower x = Unicode.toLower c := by
  simp [sameChar]

/-- A literal character and its bracket expression take the same characters just if case counts or the
two ways of disregarding it do not part at the character. -/
theorem sameChar_eq_accepts_iff {caseSensitive : Bool} {x : Char} (hx : x ≠ '/') :
    (∀ c, sameChar caseSensitive x c = (Bracket.single x).accepts caseSensitive c) ↔
      caseSensitive = true ∨ Unicode.parts x.toNat = false := by
  cases caseSensitive with
  | true =>
    refine iff_of_true ?_ (.inl rfl)
    intro c
    rw [Bool.eq_iff_iff, sameChar_eq_true_iff, Bracket.accepts_single_iff]
    constructor
    · intro h
      obtain rfl | ⟨h, -⟩ := h
      · exact ⟨hx, .inl rfl⟩
      · cases h
    · intro h
      obtain rfl | ⟨h, -⟩ := h.2
      · exact .inl rfl
      · cases h
  | false =>
    -- No other character has the lower case image of a separator.
    have hseparator : sameChar false x '/' = false := by
      rw [← Bool.not_eq_true, sameChar_eq_true_iff]
      intro h
      obtain h | ⟨-, h⟩ := h
      · exact hx h
      · have hlower := Unicode.caseTables.toLower_eq_iff.mp h
        have hslash : '/'.toNat = 0x2F := rfl
        rw [hslash] at hlower
        exact hx (Char.toNat_inj.mp (Unicode.caseTables.eq_separator_of_lowerCodes hlower))
    have hchar : ∀ c, c ≠ '/' →
        (sameChar false x c = (Bracket.single x).accepts false c ↔
          (x = c ∨ Unicode.toLower x = Unicode.toLower c ↔
            x = c ∨ x ∈ Unicode.toLower c ∨ x ∈ Unicode.toUpper c)) := by
      intro c hc
      rw [Bool.eq_iff_iff, sameChar_eq_true_iff, Bracket.accepts_single_iff]
      simp [hc]
    rw [← Unicode.caseTables.toLower_eq_iff_mem_iff]
    simp only [reduceCtorEq, false_or]
    constructor
    · intro h c hc
      exact (hchar c hc).mp (h c)
    · intro h c
      by_cases hc : c = '/'
      · rw [hc, hseparator, Bracket.accepts_separator]
      · exact (hchar c hc).mpr (h c hc)

/-! ## One segment in the place of another -/

namespace Segment

variable {caseSensitive : Bool} {s t : Segment} {after : List Segment}

theorem matchAll_replace
    (h : ∀ path, matchAll caseSensitive (s :: after) path = matchAll caseSensitive (t :: after) path)
    (before : List Segment) (path : Text) :
    matchAll caseSensitive (before ++ s :: after) path =
      matchAll caseSensitive (before ++ t :: after) path := by
  induction before generalizing path with
  | nil => exact h path
  | cons first before ih =>
    apply matchAll_cons_congr _ ih
    simp

theorem mayExtend_replace
    (h : ∀ path,
      mayExtend caseSensitive (s :: after) path = mayExtend caseSensitive (t :: after) path)
    (before : List Segment) (path : Text) :
    mayExtend caseSensitive (before ++ s :: after) path =
      mayExtend caseSensitive (before ++ t :: after) path := by
  induction before generalizing path with
  | nil => exact h path
  | cons first before ih =>
    apply mayExtend_cons_congr _ fun rest _ => ih rest
    simp

variable {x : Char}

theorem matchAll_literal
    (h : ∀ c, sameChar caseSensitive x c = (Bracket.single x).accepts caseSensitive c)
    (path : Text) : matchAll caseSensitive (.constant [x] :: after) path =
      matchAll caseSensitive (.bracket (.single x) :: after) path := by
  cases path with
  | nil => rfl
  | cons c path =>
    simp only [matchAll, fitConstant, ← h c]
    cases sameChar caseSensitive x c <;> rfl

theorem mayExtend_literal
    (h : ∀ c, sameChar caseSensitive x c = (Bracket.single x).accepts caseSensitive c)
    (path : Text) : mayExtend caseSensitive (.constant [x] :: after) path =
      mayExtend caseSensitive (.bracket (.single x) :: after) path := by
  cases path with
  | nil => rfl
  | cons c path =>
    simp only [mayExtend, fitConstant, ← h c]
    cases sameChar caseSensitive x c <;> rfl

end Segment

/-- **A character may be written as the bracket expression that holds it alone just if case counts or
the two ways of disregarding case do not part at the character.** Then either pattern says the same
about every path, whatever stands around the character. They part at the characters of
`Unicode.parting`. -/
theorem Pattern.literal_eq_bracket_iff (d : Dialect) (source source' : Text) {x : Char}
    (hx : x ≠ '/') :
    (∀ (before after : List Segment) (path : Text),
        verdict ⟨source, before ++ .constant [x] :: after, d⟩ path =
          verdict ⟨source', before ++ .bracket (.single x) :: after, d⟩ path) ↔
      d.caseSensitive = true ∨ Unicode.parts x.toNat = false := by
  rw [← sameChar_eq_accepts_iff hx]
  constructor
  · intro hall c
    have hverdict := congrArg Verdict.hit (hall [] [] [c])
    have hmatches : Segment.matchAll d.caseSensitive [.constant [x]] [c] =
        Segment.matchAll d.caseSensitive [.bracket (.single x)] [c] := hverdict
    simp only [Segment.matchAll, fitConstant, List.isEmpty_nil, Bool.and_true] at hmatches
    rw [← hmatches]
    cases sameChar d.caseSensitive x c <;> rfl
  · intro h before after path
    simp only [verdict, accepts, Segment.matchAll_replace (Segment.matchAll_literal h),
      Segment.mayExtend_replace (Segment.mayExtend_literal h)]

/-- Where case does not count, `k` may be written as `[k]`, but `K` may not be written as `[K]`: the
Kelvin sign has the lower case image of `K`, and no image that is `K`. -/
theorem Pattern.literal_eq_bracket_iff_of_kelvin :
    (∀ (before after : List Segment) (path : Text),
        verdict ⟨[], before ++ .constant ['k'] :: after, { caseSensitive := false }⟩ path =
          verdict ⟨[], before ++ .bracket (.single 'k') :: after, { caseSensitive := false }⟩ path) ∧
      ¬∀ (before after : List Segment) (path : Text),
        verdict ⟨[], before ++ .constant ['K'] :: after, { caseSensitive := false }⟩ path =
          verdict ⟨[], before ++ .bracket (.single 'K') :: after, { caseSensitive := false }⟩ path := by
  constructor
  · exact (literal_eq_bracket_iff _ _ _ (by decide)).mpr (.inr (by decide))
  · exact mt (literal_eq_bracket_iff _ _ _ (by decide)).mp (by decide)

end TreeGlob
