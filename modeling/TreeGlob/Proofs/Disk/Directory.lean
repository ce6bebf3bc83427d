import TreeGlob.Search.Dialogue
import TreeGlob.Proofs.Disk.Walk

/-!
What the questions of a search give. A search knows a directory by its real path, and asks about what
is in it by the path that it came along.

* `DirectoryAt.realPath_child`, `DirectoryAt.lstat_child` and `DirectoryAt.list` say what is answered
  about a directory whose real path is known, and about what is in it.
* `list_cases` says what a listing tells.
* `isDirectory_of_realPath` says that a real path can be looked up.
-/
namespace TreeGlob

namespace Disk

variable {d : Disk} {p : Place} {n : Name}

/-- The path has a real path, and that is the one of the directory at the place. -/
structure DirectoryAt (d : Disk) (path : Path) (place : Place) : Prop where
  realPath_eq : d.realPath path = .ok (pathTo place)
  get?_eq : d.get? place = some .dir

theorem spelled_of_realPath {path real : Path} (h : d.realPath path = .ok real) :
    path.spelled = .ok path.route := by
  obtain ⟨route, hr, -⟩ := bind_eq_ok_iff.mp h
  rw [hr, route_of_spelled hr]

theorem spelled_eq_ok {path : Path} :
    path.spelled = .ok path.route ↔ (0 : UInt8) ∉ path.bytes ∧ path.bytes ≠ [] := by
  unfold Path.spelled Path.requireNoZero
  by_cases h0 : (0 : UInt8) ∈ path.bytes
  · simp [h0, bind, Except.bind]
  · by_cases hb : path.bytes = [] <;> simp [h0, hb, bind, Except.bind]

theorem zero_not_mem_child {path : Path} (h : (0 : UInt8) ∉ path.bytes) (hs : separator ∉ n)
    (hn : (0 : UInt8) ∉ n) : (0 : UInt8) ∉ (path.child n).bytes := by
  have hsep : (0 : UInt8) ≠ separator := by decide
  rw [Path.bytes_child path hs]
  split
  · exact hn
  · split <;> simp [h, hn, hsep]

theorem admit_eq_ok {path : Path} (h : path.spelled = .ok path.route)
    (hlen : path.bytes.length < maxPathLength) : path.admit = .ok path.route := by
  unfold Path.admit
  simp [h, bind, Except.bind, Nat.not_le.mpr hlen]

theorem arrive_name {e : Entry} (h : d.get? (p ++ [n]) = some e) :
    d.arrive ⟨p, some (.name n), false⟩ = .ok (p ++ [n], e) := by
  unfold arrive
  simp only [Spot.place, h]
  cases e <;> rfl

namespace DirectoryAt

variable {path : Path} {place : Place} (hd : d.Lawful) (h : d.DirectoryAt path place)

include hd h

theorem spells : ∃ s, d.Spells maxLinks [] path.route.steps path.route.slash s ∧ s.place = place := by
  obtain ⟨s, e, hw, ha, hr⟩ := walk_of_realPath h.realPath_eq
  refine ⟨s, spells_of_walk hw, ?_⟩
  have he := get?_of_arrive ha
  exact (pathTo_injective (hd place (by simp [h.get?_eq])) (hd s.place (by simp [he])) hr).symm

theorem leads : d.Leads [] path.route.steps place := by
  obtain ⟨q, hq, hl⟩ := leads_of_realPath h.realPath_eq
  have hentry : d.get? q ≠ none := by
    rcases hl.entry d.get?_root with he | ⟨contents, he⟩ <;> simp [he]
  rwa [pathTo_injective (hd place (by simp [h.get?_eq])) (hd q hentry) hq]

theorem short : place.Short := by
  obtain ⟨s, hs, rfl⟩ := h.spells hd
  exact short_of_spells hs Place.short_nil

theorem walk_child (hn : ProperName n) : ∃ left, ∀ mode,
    d.walk mode maxLinks [] (path.child n).route.steps (path.child n).route.slash =
      d.walk mode left place [.name n] false := by
  obtain ⟨s, hs, rfl⟩ := h.spells hd
  obtain ⟨left, hleft⟩ := walk_append hs h.get?_eq
  refine ⟨left, ?_⟩
  intro mode
  rw [Path.steps_child path hn.ne_nil hn.separator_not_mem, hn.ofPiece,
    Path.slash_child path hn.ne_nil hn.separator_not_mem]
  exact hleft mode _ _ (by simp)

omit h in
theorem properName {e : Entry} (hn : d.get? (place ++ [n]) = some e) : ProperName n :=
  hd (place ++ [n]) (by simp [hn]) n (by simp)

omit hd in
theorem spelled_child (hn : ProperName n) :
    (path.child n).spelled = .ok (path.child n).route := by
  have hp := spelled_eq_ok.mp (spelled_of_realPath h.realPath_eq)
  exact spelled_eq_ok.mpr
    ⟨zero_not_mem_child hp.1 hn.separator_not_mem hn.zero_not_mem,
      Path.bytes_child_ne_nil path hn.ne_nil hn.separator_not_mem⟩

theorem realPath_child {e : Entry} (hn : d.get? (place ++ [n]) = some e)
    (he : ∀ target, e ≠ .link target) (hs : (place ++ [n]).Short) :
    d.realPath (path.child n) = .ok (pathTo (place ++ [n])) := by
  have hname := properName hd hn
  obtain ⟨left, hleft⟩ := h.walk_child hd hname
  have hl : ∀ target, d.get? (place ++ [n]) ≠ some (.link target) := by simp [hn, he]
  have hw : d.walk .spell left place [.name n] false = .ok ⟨place, some (.name n), false⟩ :=
    walk_last hname.length_le (LastName.refuses_eq_false hs .spell) rfl (.inr hl)
  have ha := arrive_name hn
  unfold Disk.realPath
  simp [h.spelled_child hname, bind, Except.bind, hleft, hw, ha]

/-- Asked for the real path of an entry that is there and no link, the system can only complain about
its length. -/
theorem realPath_child_cases {e : Entry} (hn : d.get? (place ++ [n]) = some e)
    (he : ∀ target, e ≠ .link target) :
    d.realPath (path.child n) = .ok (pathTo (place ++ [n])) ∨
      d.realPath (path.child n) = .error (.os Errno.nameTooLong) := by
  by_cases hs : (place ++ [n]).Short
  · exact .inl (h.realPath_child hd hn he hs)
  · right
    have hname := properName hd hn
    obtain ⟨left, hleft⟩ := h.walk_child hd hname
    have hr : LastName.spell.refuses (place ++ [n]) = true := by
      simpa using mt LastName.refuses_spell_eq_false.mp hs
    have hw : d.walk .spell left place [.name n] false = .error (.os Errno.nameTooLong) :=
      walk_name_refused (.inr rfl) hr
    unfold Disk.realPath
    simp [h.spelled_child hname, bind, Except.bind, hleft, hw]

theorem lstat_child {e : Entry} (hn : d.get? (place ++ [n]) = some e)
    (hs : (path.child n).bytes.length < maxPathLength) : d.lstat (path.child n) = .ok e := by
  have hname := properName hd hn
  obtain ⟨left, hleft⟩ := h.walk_child hd hname
  have hw : d.walk .keep left place [.name n] false = .ok ⟨place, some (.name n), false⟩ :=
    walk_last hname.length_le rfl rfl (.inl rfl)
  have ha := arrive_name hn
  unfold lstat locate spot
  simp [admit_eq_ok (h.spelled_child hname) hs, bind, Except.bind, Except.map, hleft, hw, ha]

theorem resolve_child {target : Path} (hn : d.get? (place ++ [n]) = some (.link target))
    (hs : (path.child n).bytes.length < maxPathLength) :
    d.resolve (path.child n) = answer (path.child n) (d.realPath (path.child n)) := by
  unfold resolve
  rw [h.lstat_child hd hn hs]

theorem locate (hs : path.bytes.length < maxPathLength) :
    d.locate .follow path = .ok (place, .dir) := by
  obtain ⟨s, hspells, rfl⟩ := h.spells hd
  have hw := walk_follow_of_spells hspells
  have ha : d.arrive s = .ok (s.place, .dir) := by
    unfold arrive
    rw [h.get?_eq]
  unfold Disk.locate spot
  simp [admit_eq_ok (spelled_of_realPath h.realPath_eq) hs, bind, Except.bind, hw, ha]

omit hd in
theorem locate_refused (mode : LastName) (hs : maxPathLength ≤ path.bytes.length) :
    d.locate mode path = .error (.os Errno.nameTooLong) := by
  have ha : path.admit = .error (.os Errno.nameTooLong) := by
    unfold Path.admit
    simp [spelled_of_realPath h.realPath_eq, bind, Except.bind, hs]
  unfold Disk.locate spot
  simp [ha, bind, Except.bind]

theorem list (hs : path.bytes.length < maxPathLength) :
    d.list path = .ok ((d.children place).map fun c => Child.ofEntry c.1 c.2) := by
  unfold Disk.list
  simp [h.locate hd hs, bind, Except.bind]

omit hd in
theorem list_refused (hs : maxPathLength ≤ path.bytes.length) :
    d.list path = .error (.os Errno.nameTooLong) := by
  unfold Disk.list
  simp [h.locate_refused .follow hs, bind, Except.bind]

end DirectoryAt

/-- Only a directory is listed, and what is listed is what it holds. -/
theorem list_cases {path : Path} {children : List Child} (h : d.list path = .ok children) :
    ∃ place, d.Leads [] path.route.steps place ∧ d.get? place = some .dir ∧
      children = (d.children place).map (fun c => Child.ofEntry c.1 c.2) ∧
      path.bytes.length < maxPathLength := by
  obtain ⟨⟨place, e⟩, hl, h⟩ := bind_eq_ok_iff.mp h
  obtain ⟨-, hlen, -, -⟩ := walk_of_locate hl
  cases e with
  | dir => exact ⟨place, leads_of_locate hl, get?_of_locate hl, (Except.ok.inj h).symm, hlen⟩
  | file contents => cases h
  | link target => cases h

theorem spelled_pathTo (hp : ∀ n ∈ p, ProperName n) :
    (pathTo p).spelled = .ok (pathTo p).route := by
  have hsep : (0 : UInt8) ≠ separator := by decide
  rw [spelled_eq_ok]
  cases p with
  | nil => exact ⟨by decide, by decide⟩
  | cons m p =>
    refine ⟨fun h0 => ?_, by simp [pathTo]⟩
    obtain ⟨n, hn, h0⟩ := List.mem_flatMap.mp h0
    exact (hp n hn).zero_not_mem (by simpa [hsep] using h0)

theorem locate_pathTo (hd : d.Lawful) (hp : d.get? p = some .dir) (hs : p.Short) :
    d.locate .follow (pathTo p) = .ok (p, .dir) := by
  have hnames := hd p (by simp [hp])
  obtain ⟨s, hw, hplace⟩ := @walk_names d [] maxLinks (pathTo p).route.slash p
    (fun n hn => (hnames n hn).length_le) (by simpa using hp)
  rw [← steps_pathTo hnames] at hw
  have ha : d.arrive s = .ok (p, .dir) := by
    unfold arrive
    simp [hplace, hp]
  unfold locate spot
  simp [admit_eq_ok (spelled_pathTo hnames) hs, bind, Except.bind, hw, ha]

theorem locate_of_isDirectory {path : Path} (h : d.isDirectory path = true) :
    ∃ q, d.locate .follow path = .ok (q, .dir) := by
  unfold isDirectory stat at h
  cases hl : d.locate .follow path with
  | error err => simp [hl, Except.map] at h
  | ok found =>
    obtain ⟨q, e⟩ := found
    cases e with
    | dir => exact ⟨q, rfl⟩
    | file contents => simp [hl, Except.map] at h
    | link target => simp [hl, Except.map] at h

theorem isDirectory_of_realPath (hd : d.Lawful) {path real : Path} (h : d.realPath path = .ok real) :
    d.isDirectory real = true ↔ ∃ place, real = pathTo place ∧ d.DirectoryAt path place := by
  refine ⟨?_, ?_⟩
  · intro hdir
    obtain ⟨q, rfl, hl⟩ := leads_of_realPath h
    obtain ⟨q', hq'⟩ := locate_of_isDirectory hdir
    -- The real path has no link on it, so it leads to one place only.
    have hback : d.Leads [] (q.map .name) q' ∧ d.Leads [] (q.map .name) q := by
      have hl' := leads_of_locate hq'
      rcases hl.entry d.get?_root with he | ⟨contents, he⟩ <;>
      · rw [steps_pathTo (hd q (by simp [he]))] at hl'
        exact ⟨hl', leads_names (p := []) he (by simp)⟩
    obtain rfl := hback.1.unique hback.2
    exact ⟨q', rfl, h, get?_of_locate hq'⟩
  · intro hyp
    obtain ⟨place, rfl, hat⟩ := hyp
    simp [isDirectory, stat, locate_pathTo hd hat.get?_eq (hat.short hd), Except.map]

end Disk

end TreeGlob
