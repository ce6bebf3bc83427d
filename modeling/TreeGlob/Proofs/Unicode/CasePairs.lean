import Mathlib.Data.List.Chain
import TreeGlob.Unicode.Letter

/-!
How the tables of lower and upper case images fit together. There are two ways of asking whether two
characters are the same but for case: whether their lower case images are equal, and whether one of
them is among the images of the other. They agree but for a few characters, which are listed here.

* `ShiftTree` arranges the rows of a table for search, and `image_eq_codes` says that the search finds
  the image of a character; without it the checks below would take too long.
* `parting` lists the characters at which the two ways part, each with a character to show it.
* `CaseTables` is what is checked of the tables, row by row: where the image of a code point leads back.
  What follows is said of tables so checked, and that these are is `caseTables`.
* **`CaseTables.lowerCodes_eq_iff`**: the two ways agree at all other characters.
-/
namespace TreeGlob.Unicode

/-! ## Looking up images -/

/-- Whether the run holds the code point, in the comparisons that are computed fastest. -/
def Run.holds (r : Run) (n : Nat) : Bool :=
  Nat.ble r.first n && (Nat.ble n r.last && Nat.beq ((n - r.first) % r.step) 0)

theorem Run.holds_iff {r : Run} {n : Nat} :
    r.holds n = true ↔ r.first ≤ n ∧ n ≤ r.last ∧ (n - r.first) % r.step = 0 := by
  simp [holds]

theorem Run.holds_eq_covers (r : Run) (n : Nat) : r.holds n = r.covers n := by
  rw [Bool.eq_iff_iff, holds_iff]
  simp [covers, and_assoc]

def Run.members (r : Run) : List Nat :=
  (List.range ((r.last - r.first) / r.step + 1)).map fun i => r.first + i * r.step

theorem Run.mem_members {r : Run} {n : Nat} (h : r.holds n = true) : n ∈ r.members := by
  obtain ⟨hfirst, hlast, hstep⟩ := holds_iff.mp h
  refine List.mem_map.mpr ⟨(n - r.first) / r.step, ?_, ?_⟩
  · rw [List.mem_range]
    apply Nat.lt_succ_of_le
    exact Nat.div_le_div_right (by omega)
  · rw [Nat.div_mul_cancel (Nat.dvd_of_mod_eq_zero hstep)]
    omega

def Shift.target (s : Shift) (n : Nat) : Nat := ((n : Int) + s.distance).toNat

/-- The rows of a table, arranged for search. -/
inductive ShiftTree where
  | leaf
  | node (left : ShiftTree) (row : Shift) (right : ShiftTree)

namespace ShiftTree

def toList : ShiftTree → List Shift
  | leaf => []
  | node left row right => left.toList ++ row :: right.toList

def find? : ShiftTree → Nat → Option Shift
  | leaf, _ => none
  | node left row right, n =>
    bif Nat.blt n row.run.first then left.find? n
    else bif Nat.blt row.run.last n then right.find? n
    else bif row.run.holds n then some row
    else none

def ofList : (depth : Nat) → List Shift → ShiftTree
  | 0, _ => leaf
  | depth + 1, rows =>
    match rows.drop (rows.length / 2) with
    | [] => leaf
    | row :: right => node (ofList depth (rows.take (rows.length / 2))) row (ofList depth right)

end ShiftTree

/-- The rows ascend, so that no code point is in two of them. -/
def Ascending (rows : List Shift) : Prop :=
  rows.IsChain fun r s => r.run.first ≤ r.run.last ∧ r.run.last < s.run.first

instance (rows : List Shift) : Decidable (Ascending rows) :=
  inferInstanceAs (Decidable (rows.IsChain _))

theorem Ascending.pairwise {rows : List Shift} (h : Ascending rows) :
    rows.Pairwise fun r s => r.run.first ≤ r.run.last ∧ r.run.last < s.run.first := by
  have : IsTrans Shift fun r s => r.run.first ≤ r.run.last ∧ r.run.last < s.run.first :=
    ⟨fun _ _ _ hrs hst => ⟨hrs.1, hrs.2.trans (hst.1.trans_lt hst.2)⟩⟩
  exact List.isChain_iff_pairwise.mp h

theorem find?_holds_eq_none {rows : List Shift} {n : Nat}
    (h : ∀ r ∈ rows, n < r.run.first ∨ r.run.last < n) : rows.find? (·.run.holds n) = none := by
  rw [List.find?_eq_none]
  intro r hr hholds
  obtain ⟨hfirst, hlast, -⟩ := Run.holds_iff.mp hholds
  have hout := h r hr
  omega

theorem ShiftTree.find?_eq {tree : ShiftTree} {n : Nat} (h : tree.toList.Pairwise fun r s =>
      r.run.first ≤ r.run.last ∧ r.run.last < s.run.first) :
    tree.find? n = tree.toList.find? (·.run.holds n) := by
  induction tree with
  | leaf => rfl
  | node left row right ihleft ihright =>
    obtain ⟨hleft, hright, hacross⟩ := List.pairwise_append.mp h
    obtain ⟨hrow, hright⟩ := List.pairwise_cons.mp hright
    have hbefore : row.run.first ≤ n → left.toList.find? (·.run.holds n) = none := by
      intro hn
      apply find?_holds_eq_none
      intro r hr
      have hless := (hacross r hr row List.mem_cons_self).2
      omega
    have hbehind : n ≤ row.run.last → right.toList.find? (·.run.holds n) = none := by
      intro hn
      apply find?_holds_eq_none
      intro r hr
      have hless := (hrow r hr).2
      omega
    have hself : n < row.run.first ∨ row.run.last < n → row.run.holds n = false := by
      intro hn
      rw [← Bool.not_eq_true, Run.holds_iff]
      omega
    rw [find?, toList, List.find?_append, List.find?_cons]
    by_cases hfirst : n < row.run.first
    · have hnone : right.toList.find? (·.run.holds n) = none := by
        apply find?_holds_eq_none
        intro r hr
        have hless := hrow r hr
        omega
      simp [Nat.blt_eq.mpr hfirst, ihleft hleft, hself (.inl hfirst), hnone]
    have hblt : Nat.blt n row.run.first = false := by
      rw [← Bool.not_eq_true, Nat.blt_eq]
      exact hfirst
    rw [hblt, hbefore (by omega)]
    by_cases hlast : row.run.last < n
    · simp [Nat.blt_eq.mpr hlast, ihright hright, hself (.inr hlast)]
    · have hblt : Nat.blt row.run.last n = false := by
        rw [← Bool.not_eq_true, Nat.blt_eq]
        exact hlast
      rw [hblt, hbehind (by omega)]
      cases row.run.holds n <;> rfl

/-- The code points of the image of a code point: those of a row that holds it, or the longer ones, or
itself. -/
def codes (rows : ShiftTree) (expansions : List (Nat × List Nat)) (n : Nat) : List Nat :=
  match rows.find? n with
  | some s => [s.target n]
  | none => (expansions.lookup n).getD [n]

section Codes

variable {rows : ShiftTree} {expansions : List (Nat × List Nat)} {n : Nat}

/-- The image of a code point is that of a row that holds it, or a longer one, or the code point. -/
theorem codes_cases (hrows : Ascending rows.toList) (expansions : List (Nat × List Nat)) (n : Nat) :
    (∃ s ∈ rows.toList, s.run.holds n = true ∧ codes rows expansions n = [s.target n]) ∨
      (∃ longer, (n, longer) ∈ expansions ∧ codes rows expansions n = longer) ∨
      codes rows expansions n = [n] := by
  unfold codes
  rw [ShiftTree.find?_eq hrows.pairwise]
  cases hfound : rows.toList.find? (·.run.holds n) with
  | some s =>
    exact .inl ⟨s, List.mem_of_find?_eq_some hfound, by simpa using List.find?_some hfound, rfl⟩
  | none =>
    cases hlonger : expansions.lookup n with
    | some longer =>
      obtain ⟨before, after, rfl, -⟩ := List.lookup_eq_some_iff.mp hlonger
      exact .inr (.inl ⟨longer, by simp, rfl⟩)
    | none => exact .inr (.inr rfl)

/-- No row holds a code point with a longer image. -/
def Apart (rows : ShiftTree) (expansions : List (Nat × List Nat)) : Prop :=
  (expansions.all fun e => (rows.find? e.1).isNone) = true

instance (rows : ShiftTree) (expansions : List (Nat × List Nat)) :
    Decidable (Apart rows expansions) :=
  inferInstanceAs (Decidable (_ = true))

theorem image_eq_codes (hrows : Ascending rows.toList) (hapart : Apart rows expansions) (c : Char) :
    image expansions rows.toList c = (codes rows expansions c.toNat).map Char.ofNat := by
  have hfind : rows.find? c.toNat = rows.toList.find? (·.run.covers c.toNat) := by
    rw [ShiftTree.find?_eq hrows.pairwise]
    simp only [Run.holds_eq_covers]
  unfold image codes
  cases hlonger : expansions.lookup c.toNat with
  | some longer =>
    obtain ⟨before, after, rfl, -⟩ := List.lookup_eq_some_iff.mp hlonger
    have hnone := List.all_eq_true.mp hapart (c.toNat, longer) (by simp)
    rw [Option.isNone_iff_eq_none.mp hnone]
    rfl
  | none =>
    rw [hfind]
    cases rows.toList.find? (·.run.covers c.toNat) with
    | some s => rfl
    | none => simp

end Codes

/-! ## What is checked of the tables -/

def lowerRows : ShiftTree := .ofList 9 lowerShifts

def upperRows : ShiftTree := .ofList 9 upperShifts

def lowerCodes (n : Nat) : List Nat := codes lowerRows lowerExpansions n

def upperCodes (n : Nat) : List Nat := codes upperRows upperExpansions n

/-- The characters at which the two ways part, each with another one to show it. -/
def parting : List (Nat × Nat) := [
  (0x41, 0x1E9A), (0x46, 0xFB00), (0x48, 0x1E96), (0x49, 0x131), (0x4A, 0x1F0), (0x4B, 0x212A),
  (0x4C, 0xFB02), (0x4E, 0x149), (0x53, 0xDF), (0x54, 0x1E97), (0x57, 0x1E98), (0x59, 0x1E99),
  (0x69, 0x130), (0xC5, 0x212B), (0x1C5, 0x1C4), (0x1C8, 0x1C7), (0x1CB, 0x1CA), (0x1F2, 0x1F1),
  (0x2BC, 0x149), (0x2BE, 0x1E9A), (0x300, 0x1F52), (0x301, 0x390), (0x307, 0x130), (0x308, 0x390),
  (0x30A, 0x1E98), (0x30C, 0x1F0), (0x313, 0x1F50), (0x331, 0x1E96), (0x342, 0x1F56),
  (0x386, 0x1FB4), (0x389, 0x1FC4), (0x38F, 0x1FF4), (0x391, 0x1FB3), (0x392, 0x3D0),
  (0x395, 0x3F5), (0x397, 0x1FC3), (0x398, 0x3D1), (0x399, 0x345), (0x39A, 0x3F0), (0x39C, 0xB5),
  (0x3A0, 0x3D6), (0x3A1, 0x3F1), (0x3A3, 0x3C2), (0x3A5, 0x3B0), (0x3A6, 0x3D5), (0x3A9, 0x1FF3),
  (0x3F4, 0x398), (0x412, 0x1C80), (0x414, 0x1C81), (0x41E, 0x1C82), (0x421, 0x1C83),
  (0x422, 0x1C84), (0x42A, 0x1C86), (0x462, 0x1C87), (0x535, 0x587), (0x53B, 0xFB15),
  (0x53D, 0xFB17), (0x544, 0xFB13), (0x546, 0xFB13), (0x54E, 0xFB16), (0x552, 0x587),
  (0x1E60, 0x1E9B), (0x1E9E, 0xDF), (0x1F08, 0x1F80), (0x1F09, 0x1F81), (0x1F0A, 0x1F82),
  (0x1F0B, 0x1F83), (0x1F0C, 0x1F84), (0x1F0D, 0x1F85), (0x1F0E, 0x1F86), (0x1F0F, 0x1F87),
  (0x1F28, 0x1F90), (0x1F29, 0x1F91), (0x1F2A, 0x1F92), (0x1F2B, 0x1F93), (0x1F2C, 0x1F94),
  (0x1F2D, 0x1F95), (0x1F2E, 0x1F96), (0x1F2F, 0x1F97), (0x1F68, 0x1FA0), (0x1F69, 0x1FA1),
  (0x1F6A, 0x1FA2), (0x1F6B, 0x1FA3), (0x1F6C, 0x1FA4), (0x1F6D, 0x1FA5), (0x1F6E, 0x1FA6),
  (0x1F6F, 0x1FA7), (0x1F88, 0x1F80), (0x1F89, 0x1F81), (0x1F8A, 0x1F82), (0x1F8B, 0x1F83),
  (0x1F8C, 0x1F84), (0x1F8D, 0x1F85), (0x1F8E, 0x1F86), (0x1F8F, 0x1F87), (0x1F98, 0x1F90),
  (0x1F99, 0x1F91), (0x1F9A, 0x1F92), (0x1F9B, 0x1F93), (0x1F9C, 0x1F94), (0x1F9D, 0x1F95),
  (0x1F9E, 0x1F96), (0x1F9F, 0x1F97), (0x1FA8, 0x1FA0), (0x1FA9, 0x1FA1), (0x1FAA, 0x1FA2),
  (0x1FAB, 0x1FA3), (0x1FAC, 0x1FA4), (0x1FAD, 0x1FA5), (0x1FAE, 0x1FA6), (0x1FAF, 0x1FA7),
  (0x1FBA, 0x1FB2), (0x1FBC, 0x1FB3), (0x1FCA, 0x1FC2), (0x1FCC, 0x1FC3), (0x1FFA, 0x1FF2),
  (0x1FFC, 0x1FF3), (0x2126, 0x3A9), (0x212A, 0x4B), (0x212B, 0xC5), (0xA64A, 0x1C88)]

/-- Whether the two ways part at the code point. -/
def parts (n : Nat) : Bool := parting.any fun p => Nat.beq p.1 n

/-- Whether one comes back to a code point from its lower case image, or the two ways part at it, and
at whatever else one comes back to unless that is its own upper case image. -/
def returns (n image : Nat) : Bool :=
  upperCodes image == [n] || (parts n &&
    (upperCodes image).all fun m => m == n || ((upperCodes n).contains m || parts m))

/-- Whether the two ways give different answers about two code points. -/
def partedBy (x n : Nat) : Bool :=
  (x == n || lowerCodes x == lowerCodes n) !=
    (x == n || ((lowerCodes n).contains x || (upperCodes n).contains x))

def isCharacter (n : Nat) : Bool := Nat.blt n 0xD800 || Nat.blt 0xDFFF n && Nat.blt n 0x110000

theorem isCharacter_iff {n : Nat} : isCharacter n = true ↔ n.isValidChar := by
  simp [isCharacter, Nat.isValidChar]

/-- What is checked of the tables. -/
structure CaseTables : Prop where
  lower_rows : lowerRows.toList = lowerShifts
  upper_rows : upperRows.toList = upperShifts
  lower_ascending : Ascending lowerShifts
  upper_ascending : Ascending upperShifts
  lower_apart : Apart lowerRows lowerExpansions
  upper_apart : Apart upperRows upperExpansions
  /-- Lower case images are their own lower case images, and no separators. -/
  lower_stays : (lowerShifts.all fun r => r.run.members.all fun n =>
    lowerCodes (r.target n) == [r.target n] && r.target n != 0x2F) = true
  lower_separator : lowerCodes 0x2F = [0x2F]
  lower_returns : (lowerShifts.all fun r => r.run.members.all fun n =>
    returns n (r.target n)) = true
  /-- Upper case images have the lower case image of what they are images of. -/
  upper_agrees : (upperShifts.all fun r => r.run.members.all fun n =>
    lowerCodes (r.target n) == lowerCodes n || parts (r.target n)) = true
  lower_longer_parts : (lowerExpansions.all fun e => e.2.all parts) = true
  upper_longer_parts : (upperExpansions.all fun e => e.2.all parts) = true
  /-- Each character of the list is listed with one that is no separator and shows that it belongs
  there. -/
  parted : (parting.all fun p => partedBy p.1 p.2 && (p.2 != 0x2F && isCharacter p.2)) = true
  rows_valid : ((lowerShifts ++ upperShifts).all fun r => r.run.members.all fun n =>
    isCharacter (r.target n)) = true
  longer_valid : (upperExpansions.all fun e => e.2.all isCharacter) = true

theorem of_checked {rows : List Shift} {r : Shift} {n : Nat} {check : Shift → Nat → Bool}
    (h : (rows.all fun r => r.run.members.all fun n => check r n) = true) (hr : r ∈ rows)
    (hn : r.run.holds n = true) : check r n = true :=
  List.all_eq_true.mp (List.all_eq_true.mp h r hr) n (Run.mem_members hn)

/-! ## Where images lead back -/

namespace CaseTables

theorem lowerRows_ascending (tables : CaseTables) : Ascending lowerRows.toList := by
  rw [tables.lower_rows]
  exact tables.lower_ascending

theorem upperRows_ascending (tables : CaseTables) : Ascending upperRows.toList := by
  rw [tables.upper_rows]
  exact tables.upper_ascending

theorem toLower_eq_codes (tables : CaseTables) (c : Char) :
    toLower c = (lowerCodes c.toNat).map Char.ofNat := by
  rw [toLower, ← tables.lower_rows]
  exact image_eq_codes tables.lowerRows_ascending tables.lower_apart c

theorem toUpper_eq_codes (tables : CaseTables) (c : Char) :
    toUpper c = (upperCodes c.toNat).map Char.ofNat := by
  rw [toUpper, ← tables.upper_rows]
  exact image_eq_codes tables.upperRows_ascending tables.upper_apart c

theorem lowerCodes_cases (tables : CaseTables) (n : Nat) :
    n = 0x130 ∧ lowerCodes n = [0x69, 0x307] ∨
    (∃ r ∈ lowerShifts, r.run.holds n = true ∧ lowerCodes n = [r.target n]) ∨
      lowerCodes n = [n] := by
  obtain ⟨r, hr, hholds, hcodes⟩ | ⟨longer, hlonger, hcodes⟩ | hcodes :=
    codes_cases tables.lowerRows_ascending lowerExpansions n
  · rw [tables.lower_rows] at hr
    exact .inr (.inl ⟨r, hr, hholds, hcodes⟩)
  · obtain ⟨rfl, rfl⟩ : n = 0x130 ∧ longer = [0x69, 0x307] := by
      simpa [lowerExpansions] using hlonger
    exact .inl ⟨rfl, hcodes⟩
  · exact .inr (.inr hcodes)

theorem upperCodes_cases (tables : CaseTables) (n : Nat) :
    (∃ longer, (n, longer) ∈ upperExpansions ∧ upperCodes n = longer) ∨
      (∃ r ∈ upperShifts, r.run.holds n = true ∧ upperCodes n = [r.target n]) ∨
      upperCodes n = [n] := by
  obtain ⟨r, hr, hholds, hcodes⟩ | hcodes | hcodes :=
    codes_cases tables.upperRows_ascending upperExpansions n
  · rw [tables.upper_rows] at hr
    exact .inr (.inl ⟨r, hr, hholds, hcodes⟩)
  · exact .inl hcodes
  · exact .inr (.inr hcodes)

section Rows

variable {r : Shift} {n x : Nat}

theorem lowerCodes_target (tables : CaseTables) (hr : r ∈ lowerShifts) (hn : r.run.holds n = true) :
    lowerCodes (r.target n) = [r.target n] ∧ r.target n ≠ 0x2F := by
  have hchecked := of_checked tables.lower_stays hr hn
  simpa using hchecked

theorem upperCodes_target (tables : CaseTables) (hr : r ∈ lowerShifts) (hn : r.run.holds n = true)
    (hx : parts n = false) : upperCodes (r.target n) = [n] := by
  have hreturns := of_checked tables.lower_returns hr hn
  simpa [returns, hx] using hreturns

/-- Whatever one comes back to from the lower case image of a code point is that code point or its
upper case image, unless the two ways part at it. -/
theorem mem_upperCodes_of_target (tables : CaseTables) (hr : r ∈ lowerShifts)
    (hn : r.run.holds n = true) (hmem : x ∈ upperCodes (r.target n)) (hx : parts x = false) :
    x = n ∨ x ∈ upperCodes n := by
  have hreturns := of_checked tables.lower_returns hr hn
  simp only [returns, Bool.or_eq_true, Bool.and_eq_true, beq_iff_eq, List.all_eq_true] at hreturns
  obtain hsame | ⟨-, hall⟩ := hreturns
  · rw [hsame, List.mem_singleton] at hmem
    exact .inl hmem
  · have hm := hall x hmem
    simpa [hx] using hm

/-- Upper case images have the lower case image of what they are images of, unless the two ways part
at them. -/
theorem lowerCodes_of_upper (tables : CaseTables) (hr : r ∈ upperShifts) (hn : r.run.holds n = true)
    (hx : parts (r.target n) = false) : lowerCodes (r.target n) = lowerCodes n := by
  have hagrees := of_checked tables.upper_agrees hr hn
  simpa [hx] using hagrees

end Rows

/-- What a longer image holds is a character at which the two ways part. -/
theorem parts_of_mem_longer {expansions : List (Nat × List Nat)} {n x : Nat} {longer : List Nat}
    (h : (expansions.all fun e => e.2.all parts) = true) (hlonger : (n, longer) ∈ expansions)
    (hx : x ∈ longer) : parts x = true :=
  List.all_eq_true.mp (List.all_eq_true.mp h _ hlonger) x hx

theorem eq_separator_of_lowerCodes (tables : CaseTables) {n : Nat}
    (h : lowerCodes n = lowerCodes 0x2F) : n = 0x2F := by
  rw [tables.lower_separator] at h
  obtain ⟨-, hlong⟩ | ⟨r, hr, hholds, hcodes⟩ | hcodes := tables.lowerCodes_cases n
  · rw [hlong] at h
    simp at h
  · rw [hcodes] at h
    exact ((tables.lowerCodes_target hr hholds).2 (List.head_eq_of_cons_eq h)).elim
  · rw [hcodes] at h
    exact List.head_eq_of_cons_eq h

/-- **Two characters with the same lower case image are images of each other, and conversely**, unless
the two ways part at the first one. -/
theorem lowerCodes_eq_iff (tables : CaseTables) {x n : Nat} (hx : parts x = false) :
    x = n ∨ lowerCodes x = lowerCodes n ↔ x = n ∨ x ∈ lowerCodes n ∨ x ∈ upperCodes n := by
  constructor
  · intro h
    obtain rfl | h := h
    · exact .inl rfl
    obtain ⟨rfl, hlong⟩ | ⟨r, hr, hholds, hcodes⟩ | hcodes := tables.lowerCodes_cases x
    · obtain ⟨rfl, -⟩ | ⟨s, -, -, hcodes⟩ | hcodes := tables.lowerCodes_cases n
      · exact .inl rfl
      all_goals
        rw [hlong, hcodes] at h
        simp at h
    · obtain ⟨-, hlong⟩ | ⟨s, hs, hholds', hcodes'⟩ | hcodes' := tables.lowerCodes_cases n
      · rw [hlong, hcodes] at h
        simp at h
      · have htarget : r.target x = s.target n := by
          rw [hcodes, hcodes'] at h
          exact List.head_eq_of_cons_eq h
        have hmem : x ∈ upperCodes (s.target n) := by
          rw [← htarget, tables.upperCodes_target hr hholds hx]
          exact List.mem_singleton_self x
        exact (tables.mem_upperCodes_of_target hs hholds' hmem hx).imp_right .inr
      · have htarget : r.target x = n := by
          rw [hcodes, hcodes'] at h
          exact List.head_eq_of_cons_eq h
        refine .inr (.inr ?_)
        rw [← htarget, tables.upperCodes_target hr hholds hx]
        exact List.mem_singleton_self x
    · refine .inr (.inl ?_)
      rw [← h, hcodes]
      exact List.mem_singleton_self x
  · intro h
    obtain rfl | hmem | hmem := h
    · exact .inl rfl
    · obtain ⟨rfl, hlong⟩ | ⟨r, hr, hholds, hcodes⟩ | hcodes := tables.lowerCodes_cases n
      · rw [hlong] at hmem
        have hparts := parts_of_mem_longer tables.lower_longer_parts
          (by simp [lowerExpansions] : (0x130, [0x69, 0x307]) ∈ lowerExpansions) hmem
        rw [hx] at hparts
        cases hparts
      · rw [hcodes, List.mem_singleton] at hmem
        rw [hmem, (tables.lowerCodes_target hr hholds).1, hcodes]
        exact .inr rfl
      · rw [hcodes, List.mem_singleton] at hmem
        exact .inl hmem
    · obtain ⟨longer, hlonger, hcodes⟩ | ⟨r, hr, hholds, hcodes⟩ | hcodes := tables.upperCodes_cases n
      · rw [hcodes] at hmem
        have hparts := parts_of_mem_longer tables.upper_longer_parts hlonger hmem
        rw [hx] at hparts
        cases hparts
      · rw [hcodes, List.mem_singleton] at hmem
        rw [hmem] at hx ⊢
        exact .inr (tables.lowerCodes_of_upper hr hholds hx)
      · rw [hcodes, List.mem_singleton] at hmem
        exact .inl hmem

/-- The two ways part at each character of the list, and a character other than a separator shows it. -/
theorem exists_parted (tables : CaseTables) {x : Nat} (hx : parts x = true) :
    ∃ n, n.isValidChar ∧ n ≠ 0x2F ∧
    ¬(x = n ∨ lowerCodes x = lowerCodes n ↔ x = n ∨ x ∈ lowerCodes n ∨ x ∈ upperCodes n) := by
  obtain ⟨p, hp, hpx⟩ := List.any_eq_true.mp hx
  obtain rfl : p.1 = x := by simpa using hpx
  have hchecked := List.all_eq_true.mp tables.parted p hp
  simp only [Bool.and_eq_true, bne_iff_ne, ne_eq, isCharacter_iff] at hchecked
  obtain ⟨hparted, hslash, hvalid⟩ := hchecked
  refine ⟨p.2, hvalid, hslash, ?_⟩
  intro hiff
  apply absurd hparted
  rw [Bool.not_eq_true, partedBy, bne_eq_false_iff_eq, Bool.eq_iff_iff]
  simpa using hiff

/-! ## Images are characters -/

theorem isValidChar_of_mem_lowerCodes (tables : CaseTables) {n m : Nat} (hn : n.isValidChar)
    (hm : m ∈ lowerCodes n) : m.isValidChar := by
  obtain ⟨-, hlong⟩ | ⟨r, hr, hholds, hcodes⟩ | hcodes := tables.lowerCodes_cases n
  · rw [hlong] at hm
    obtain rfl | rfl : m = 0x69 ∨ m = 0x307 := by simpa using hm
    all_goals decide
  · rw [hcodes, List.mem_singleton] at hm
    rw [hm]
    exact isCharacter_iff.mp
      (of_checked tables.rows_valid (List.mem_append_left upperShifts hr) hholds)
  · rw [hcodes, List.mem_singleton] at hm
    exact hm ▸ hn

theorem isValidChar_of_mem_upperCodes (tables : CaseTables) {n m : Nat} (hn : n.isValidChar)
    (hm : m ∈ upperCodes n) : m.isValidChar := by
  obtain ⟨longer, hlonger, hcodes⟩ | ⟨r, hr, hholds, hcodes⟩ | hcodes := tables.upperCodes_cases n
  · rw [hcodes] at hm
    exact isCharacter_iff.mp
      (List.all_eq_true.mp (List.all_eq_true.mp tables.longer_valid _ hlonger) m hm)
  · rw [hcodes, List.mem_singleton] at hm
    rw [hm]
    exact isCharacter_iff.mp
      (of_checked tables.rows_valid (List.mem_append_right lowerShifts hr) hholds)
  · rw [hcodes, List.mem_singleton] at hm
    exact hm ▸ hn

end CaseTables

theorem caseTables : CaseTables where
  lower_rows := by decide +kernel
  upper_rows := by decide +kernel
  lower_ascending := by decide +kernel
  upper_ascending := by decide +kernel
  lower_apart := by decide +kernel
  upper_apart := by decide +kernel
  lower_stays := by decide +kernel
  lower_separator := by decide +kernel
  lower_returns := by decide +kernel
  upper_agrees := by decide +kernel
  lower_longer_parts := by decide +kernel
  upper_longer_parts := by decide +kernel
  parted := by decide +kernel
  rows_valid := by decide +kernel
  longer_valid := by decide +kernel

end TreeGlob.Unicode
