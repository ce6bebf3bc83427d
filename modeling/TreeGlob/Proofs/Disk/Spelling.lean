import Mathlib.Data.List.Basic
import Mathlib.Data.List.Infix
import TreeGlob.Disk.Resolve
import TreeGlob.Proofs.Text.RoundTrip

/-!
How places and paths are spelled. A place is a list of names, a path is a byte string, and a search
goes back and forth between the two.

* `ProperName` says what the system guarantees of the name of an entry, and `Disk.Lawful` that all
  names on a disk are such names.
* `steps_child` and `components_child` say what one more name adds to a path, `steps_pathTo` and
  `components_pathTo` what the absolute path of a place consists of.
* `startsWith_pathTo` turns the comparison of absolute paths into one of places.
* `Path.descend` goes down several names; different ways down are spelled differently.
-/
namespace TreeGlob

/-- A name that an entry can have: no separator and no zero byte in it, not too long, and neither of
the two names that every directory answers to. -/
structure ProperName (n : Name) : Prop where
  ne_nil : n ≠ []
  separator_not_mem : separator ∉ n
  zero_not_mem : (0 : UInt8) ∉ n
  ne_here : n ≠ [dot]
  ne_up : n ≠ [dot, dot]
  length_le : n.length ≤ maxNameLength

/-- Every entry of the disk is reached by names that an entry can have. -/
def Disk.Lawful (d : Disk) : Prop := ∀ p, d.get? p ≠ none → ∀ n ∈ p, ProperName n

theorem properName_iff {n : Name} : ProperName n ↔ n ≠ [] ∧ separator ∉ n ∧ (0 : UInt8) ∉ n ∧
    n ≠ [dot] ∧ n ≠ [dot, dot] ∧ n.length ≤ maxNameLength :=
  ⟨fun h => ⟨h.1, h.2, h.3, h.4, h.5, h.6⟩, fun ⟨h1, h2, h3, h4, h5, h6⟩ => ⟨h1, h2, h3, h4, h5, h6⟩⟩

instance (n : Name) : Decidable (ProperName n) := decidable_of_iff' _ properName_iff

theorem Disk.lawful_iff {d : Disk} :
    d.Lawful ↔ ∀ row ∈ d.entries, ∀ n ∈ row.1, ProperName n := by
  refine ⟨?_, ?_⟩
  · intro h row hrow
    exact h row.1 (by simp [(mem_entries.mp hrow).2])
  · intro h p hp
    by_cases hnil : p = []
    · simp [hnil]
    · obtain ⟨e, he⟩ := Option.ne_none_iff_exists'.mp hp
      exact h (p, e) (mem_entries.mpr ⟨hnil, he⟩)

instance (d : Disk) : Decidable d.Lawful := decidable_of_iff' _ Disk.lawful_iff

theorem ProperName.ofPiece {n : Name} (h : ProperName n) : Step.ofPiece n = .name n := by
  rw [Step.ofPiece, if_neg h.ne_here, if_neg h.ne_up]

namespace Path

theorem eq_of_bytes {p q : Path} (h : p.bytes = q.bytes) : p = q := by
  cases p
  cases q
  exact congrArg Path.mk h

/-! ## One more name -/

theorem split_append (a b : Bytes) : split (a ++ separator :: b) = split a ++ split b := by
  induction a with
  | nil => simp [split]
  | cons c a ih =>
    by_cases hc : c = separator
    · simp [split, hc, ih]
    · rw [List.cons_append, split, if_neg hc, ih, split, if_neg hc]
      obtain ⟨piece, pieces, hs⟩ := List.exists_cons_of_ne_nil (split_ne_nil a)
      rw [hs]
      rfl

theorem isAbsolute_of_not_mem {n : Name} (h : separator ∉ n) : (Path.mk n).isAbsolute = false := by
  cases n with
  | nil => rfl
  | cons b rest =>
    have hb : b ≠ separator := fun e => h (e ▸ List.mem_cons_self)
    simp [isAbsolute, hb]

theorem bytes_child (p : Path) {n : Name} (h : separator ∉ n) : (p.child n).bytes =
    if p.bytes = [] then n
    else if p.bytes.getLast? = some separator then p.bytes ++ n
    else p.bytes ++ separator :: n := by
  unfold child join
  simp only [isAbsolute_of_not_mem h, Bool.false_or, List.isEmpty_iff]
  split
  · rfl
  · split <;> rfl

theorem pieces_child (p : Path) {n : Name} (hne : n ≠ []) (h : separator ∉ n) :
    (p.child n).pieces = p.pieces ++ [n] := by
  have hn : (split n).filter (!·.isEmpty) = [n] := by simp [split_of_not_mem h, hne]
  unfold pieces
  rw [bytes_child p h]
  split
  · next hp => rw [hn, hp]; rfl
  · split
    · next hl =>
      obtain ⟨front, hf⟩ := List.getLast?_eq_some_iff.mp hl
      rw [hf, List.append_assoc, List.singleton_append, split_append, split_append,
        List.filter_append, List.filter_append, hn]
      simp [split]
    · rw [split_append, List.filter_append, hn]

theorem steps_child (p : Path) {n : Name} (hne : n ≠ []) (h : separator ∉ n) :
    (p.child n).route.steps = p.route.steps ++ [Step.ofPiece n] := by
  simp [route, pieces_child p hne h]

theorem slash_child (p : Path) {n : Name} (hne : n ≠ []) (h : separator ∉ n) :
    (p.child n).route.slash = false := by
  have hl : n.getLast? ≠ some separator := fun e => h (List.mem_of_getLast? e)
  have hb : (p.child n).bytes.getLast? = n.getLast? := by
    obtain ⟨c, hc⟩ := Option.ne_none_iff_exists'.mp (mt List.getLast?_eq_none_iff.mp hne)
    rw [bytes_child p h]
    split
    · rfl
    · split <;> simp [List.getLast?_cons, hc]
  simp [route, hb, hl]

theorem bytes_child_ne_nil (p : Path) {n : Name} (hne : n ≠ []) (h : separator ∉ n) :
    (p.child n).bytes ≠ [] := by
  rw [bytes_child p h]
  split
  · exact hne
  · split <;> simp [hne]

theorem length_lt_child (p : Path) {n : Name} (hne : n ≠ []) (h : separator ∉ n) :
    p.bytes.length < (p.child n).bytes.length := by
  have hn : 0 < n.length := List.length_pos_iff.mpr hne
  rw [bytes_child p h]
  split
  · next hp => simpa [hp] using hn
  · split
    · rw [List.length_append]; omega
    · rw [List.length_append, List.length_cons]; omega

theorem isAbsolute_child {p : Path} (hp : p.isAbsolute = true) {n : Name} (h : separator ∉ n) :
    (p.child n).isAbsolute = true := by
  obtain ⟨bs⟩ := p
  cases bs with
  | nil => simp [isAbsolute] at hp
  | cons b bs =>
    have hb : b = separator := by simpa [isAbsolute] using hp
    unfold isAbsolute
    rw [bytes_child _ h, if_neg (by simp)]
    split <;> simp [hb]

theorem components_child {p : Path} (hp : p.isAbsolute = true) {n : Name} (hn : ProperName n) :
    (p.child n).components = p.components ++ [.name n] := by
  unfold components
  rw [if_pos hp, if_pos (isAbsolute_child hp hn.separator_not_mem),
    pieces_child p hn.ne_nil hn.separator_not_mem]
  simp [hn.ne_here, hn.ne_up]

end Path

namespace Disk

/-! ## The absolute path of a place -/

variable {p q : Place}

theorem bytes_pathTo_append (p : Place) (n : Name) :
    (pathTo (p ++ [n])).bytes = p.flatMap (separator :: ·) ++ separator :: n := by
  cases p <;> simp [pathTo]

theorem pathTo_append (hp : ∀ m ∈ p, ProperName m) {n : Name} (hn : ProperName n) :
    pathTo (p ++ [n]) = (pathTo p).child n := by
  have h := hn.separator_not_mem
  apply Path.eq_of_bytes
  rw [bytes_pathTo_append, Path.bytes_child (pathTo p) h]
  rcases List.eq_nil_or_concat p with rfl | ⟨p, m, rfl⟩
  · simp [pathTo, Path.root]
  · have hm := hp m (by simp)
    obtain ⟨c, hc⟩ := Option.ne_none_iff_exists'.mp (mt List.getLast?_eq_none_iff.mp hm.ne_nil)
    have hcs : c ≠ separator := fun e => hm.separator_not_mem (e ▸ List.mem_of_getLast? hc)
    rw [List.concat_eq_append, bytes_pathTo_append, if_neg (by simp),
      if_neg (by simp [List.getLast?_cons, hc, hcs])]
    simp

theorem pieces_pathTo (hp : ∀ n ∈ p, ProperName n) : (pathTo p).pieces = p := by
  induction p using List.reverseRecOn with
  | nil => rfl
  | append_singleton p n ih =>
    have hn := hp n (by simp)
    have hp := fun m hm => hp m (List.mem_append_left [n] hm)
    rw [pathTo_append hp hn, Path.pieces_child _ hn.ne_nil hn.separator_not_mem, ih hp]

theorem steps_pathTo (hp : ∀ n ∈ p, ProperName n) : (pathTo p).route.steps = p.map .name := by
  rw [Path.route, pieces_pathTo hp]
  exact List.map_congr_left fun n hn => (hp n hn).ofPiece

theorem components_pathTo (hp : ∀ n ∈ p, ProperName n) :
    (pathTo p).components = .root :: p.map .name := by
  induction p using List.reverseRecOn with
  | nil => rfl
  | append_singleton p n ih =>
    have hn := hp n (by simp)
    have hp := fun m hm => hp m (List.mem_append_left [n] hm)
    rw [pathTo_append hp hn, Path.components_child (isAbsolute_pathTo p) hn, ih hp]
    simp

theorem pathTo_injective (hp : ∀ n ∈ p, ProperName n) (hq : ∀ n ∈ q, ProperName n)
    (h : pathTo p = pathTo q) : p = q := by
  rw [← pieces_pathTo hp, h, pieces_pathTo hq]

theorem startsWith_pathTo (hp : ∀ n ∈ p, ProperName n) (hq : ∀ n ∈ q, ProperName n) :
    (pathTo p).startsWith (pathTo q) = true ↔ q <+: p := by
  have hinj : Function.Injective Path.Component.name := fun _ _ h => Path.Component.name.inj h
  rw [Path.startsWith, components_pathTo hp, components_pathTo hq, List.isPrefixOf_iff_prefix,
    List.prefix_cons_inj, List.prefix_map_iff_of_injective hinj]

end Disk

/-! ## Going down several names -/

namespace Path

/-- The path of what is reached from `p` through entries with the given names. -/
def descend (p : Path) (way : List Text) : Path := way.foldl (fun p c => p.child (Utf8.encode c)) p

@[simp] theorem descend_nil (p : Path) : p.descend [] = p := rfl

@[simp] theorem descend_cons (p : Path) (c : Text) (way : List Text) :
    p.descend (c :: way) = (p.child (Utf8.encode c)).descend way := rfl

theorem descend_append (p : Path) (way more : List Text) :
    p.descend (way ++ more) = (p.descend way).descend more := List.foldl_append

end Path

/-- The texts are pieces of a path: none is empty and none has a separator in it. -/
def Pieces (way : List Text) : Prop := ∀ c ∈ way, c ≠ [] ∧ '/' ∉ c

theorem separator_not_mem_encode {c : Text} (h : '/' ∉ c) : separator ∉ Utf8.encode c :=
  mt (Utf8.mem_encode_ascii rfl (by decide)).mp h

theorem encode_ne_nil {c : Text} (h : c ≠ []) : Utf8.encode c ≠ [] := mt Utf8.encode_eq_nil_iff.mp h

theorem piece_of_encode {c : Text} (h : Utf8.encode c ≠ [] ∧ separator ∉ Utf8.encode c) :
    c ≠ [] ∧ '/' ∉ c :=
  ⟨mt Utf8.encode_eq_nil_iff.mpr h.1, mt (Utf8.mem_encode_ascii rfl (by decide)).mpr h.2⟩

namespace Path

theorem pieces_descend {way : List Text} (h : Pieces way) (p : Path) :
    (p.descend way).pieces = p.pieces ++ way.map Utf8.encode := by
  induction way generalizing p with
  | nil => simp
  | cons c way ih =>
    obtain ⟨hne, hs⟩ := h c List.mem_cons_self
    rw [descend_cons, ih (fun x hx => h x (List.mem_cons_of_mem c hx)),
      pieces_child p (encode_ne_nil hne) (separator_not_mem_encode hs)]
    simp

theorem descend_injective {way other : List Text} (h : Pieces way) (h' : Pieces other) {p : Path}
    (he : p.descend way = p.descend other) : way = other := by
  have hp := congrArg Path.pieces he
  rw [pieces_descend h, pieces_descend h', List.append_cancel_left_eq] at hp
  exact List.map_injective_iff.mpr (fun _ _ => Utf8.encode_injective) hp

theorem length_add_le_descend {way : List Text} (h : Pieces way) (p : Path) :
    p.bytes.length + way.length ≤ (p.descend way).bytes.length := by
  induction way generalizing p with
  | nil => exact Nat.le_refl _
  | cons c way ih =>
    obtain ⟨hne, hs⟩ := h c List.mem_cons_self
    have hlt := length_lt_child p (encode_ne_nil hne) (separator_not_mem_encode hs)
    have hle := ih (fun x hx => h x (List.mem_cons_of_mem c hx)) (p.child (Utf8.encode c))
    rw [descend_cons, List.length_cons]
    omega

theorem length_le_descend {way : List Text} (h : Pieces way) (p : Path) :
    p.bytes.length ≤ (p.descend way).bytes.length :=
  Nat.le_of_add_right_le (length_add_le_descend h p)

theorem length_child_lt_of_descend {c : Text} {way : List Text} (h : Pieces way) {p : Path} {n : Nat}
    (hn : (p.descend (c :: way)).bytes.length < n) :
    (p.child (Utf8.encode c)).bytes.length < n := by
  calc (p.child (Utf8.encode c)).bytes.length
    _ ≤ ((p.child (Utf8.encode c)).descend way).bytes.length := length_le_descend h _
    _ < n := hn

end Path

end TreeGlob
