import TreeGlob.Proofs.Disk.Directory
import TreeGlob.Proofs.Search.Visit

/-!
The directories a search has entered on the way to where it is. A task keeps their real paths; the
invariant is told through places.

* `Task.Placed` is the invariant: the real paths are those of directories, the path of the task leads
  to the innermost one, and none lies at or above one that was entered before it. Plain directories
  are entered unchecked, and what keeps the invariant then is that it holds of the directory above.
* `Selection.Created` are the tasks of a search.
* `Created.placed` says that all of them keep the invariant.
-/
namespace TreeGlob

namespace Task

/-- The task is for the directory at `place`, entered by way of those in `above`, innermost first. -/
structure Placed (d : Disk) (t : Task) (place : Place) (above : List Place) : Prop where
  real_eq : t.real = Disk.pathTo place
  above_eq : t.above = above.map Disk.pathTo
  get?_eq : ∀ p ∈ place :: above, d.get? p = some .dir
  leads : ∀ q, d.Leads [] t.path.route.steps q → q = place
  apart : (place :: above).Pairwise fun inner outer => ¬inner <+: outer

namespace Placed

variable {d : Disk} {t : Task} {place : Place} {above : List Place}

theorem chain_eq (h : Placed d t place above) :
    t.real :: t.above = (place :: above).map Disk.pathTo := by
  rw [h.real_eq, h.above_eq, List.map_cons]

theorem names (hd : d.Lawful) (h : Placed d t place above) {p : Place} (hp : p ∈ place :: above) :
    ∀ n ∈ p, ProperName n :=
  hd p (by simp [h.get?_eq p hp])

theorem leadsBack_iff (hd : d.Lawful) (h : Placed d t place above) {q : Place} {e : Entry}
    (hq : d.get? q = some e) :
    t.leadsBack (Disk.pathTo q) = false ↔ ∀ p ∈ place :: above, ¬q <+: p := by
  have hname := hd q (by simp [hq])
  unfold leadsBack
  rw [h.chain_eq, List.any_eq_false]
  refine ⟨?_, ?_⟩
  · intro hback p hp hpre
    exact hback _ (List.mem_map_of_mem hp) ((Disk.startsWith_pathTo (h.names hd hp) hname).mpr hpre)
  · rintro hback _ hmem hstart
    obtain ⟨p, hp, rfl⟩ := List.mem_map.mp hmem
    exact hback p hp ((Disk.startsWith_pathTo (h.names hd hp) hname).mp hstart)

theorem child_apart (h : Placed d t place above) (n : Name) :
    ∀ p ∈ place :: above, ¬place ++ [n] <+: p := by
  intro p hp hpre
  have hplace : place <+: p := (List.prefix_append place [n]).trans hpre
  rcases List.mem_cons.mp hp with rfl | hp
  · have hlen := hpre.length_le
    rw [List.length_append, List.length_singleton] at hlen
    omega
  · -- That would have kept the directory itself from being entered.
    exact (List.pairwise_cons.mp h.apart).1 p hp hplace

theorem enter (h : Placed d t place above) {n : Name} {text : Text} {real : Path} {q : Place}
    (hreal : real = Disk.pathTo q) (hq : d.get? q = some .dir)
    (hl : ∀ m, d.Leads [] (t.path.child n).route.steps m → m = q)
    (hapart : ∀ p ∈ place :: above, ¬q <+: p) :
    Placed d (t.enter n text real) q (place :: above) where
  real_eq := hreal
  above_eq := h.chain_eq
  get?_eq := by
    intro p hp
    rcases List.mem_cons.mp hp with rfl | hp
    · exact hq
    · exact h.get?_eq p hp
  leads := hl
  apart := List.pairwise_cons.mpr ⟨hapart, h.apart⟩

theorem enter_child (hd : d.Lawful) (h : Placed d t place above) {n : Name} (text : Text)
    (hn : d.get? (place ++ [n]) = some .dir) :
    Placed d (t.enter n text (t.real.child n)) (place ++ [n]) (place :: above) := by
  have hname := hd (place ++ [n]) (by simp [hn])
  have hproper := hname n (by simp)
  have hplace := h.names hd List.mem_cons_self
  refine h.enter ?_ hn (fun m hm => ?_) (h.child_apart n)
  · rw [h.real_eq, Disk.pathTo_append hplace hproper]
  · rw [Path.steps_child t.path hproper.ne_nil hproper.separator_not_mem, hproper.ofPiece] at hm
    obtain ⟨k, hk, hm⟩ := hm.split
    obtain rfl := h.leads k hk
    exact Disk.leads_name_dir hn hm

/-- Entering a directory elsewhere, which the path of the entry leads to. -/
theorem enter_real (hd : d.Lawful) (h : Placed d t place above) {n : Name} (text : Text)
    {real : Path} (hr : d.realPath (t.path.child n) = .ok real) (hdir : d.isDirectory real = true)
    (hback : t.leadsBack real = false) :
    ∃ q, Placed d (t.enter n text real) q (place :: above) ∧ d.DirectoryAt (t.path.child n) q := by
  obtain ⟨q, rfl, hat⟩ := (Disk.isDirectory_of_realPath hd hr).mp hdir
  have hapart := (h.leadsBack_iff hd hat.get?_eq).mp hback
  exact ⟨q, h.enter rfl hat.get?_eq (fun m hm => hm.unique (hat.leads hd)) hapart, hat⟩

end Placed

end Task

namespace Disk

variable {d : Disk}

theorem realPath_of_resolve {path real : Path} (h : d.resolve path = .ok real) :
    d.realPath path = .ok real := by
  unfold resolve at h
  split at h
  · cases h
  · exact answer_eq_ok.mp h
  · cases h

theorem list_placed {t : Task} {place : Place} {above : List Place} (h : t.Placed d place above)
    {children : List Child} (hl : d.list t.path = .ok children) :
    children = (d.children place).map fun c => Child.ofEntry c.1 c.2 := by
  obtain ⟨q, hq, -, rfl, -⟩ := list_cases hl
  rw [h.leads q hq]

end Disk

namespace Task.Placed

variable {d : Disk} {s : Selection} {t u : Task} {place : Place} {above : List Place}

/-- The tasks that a visit gives keep the invariant. -/
theorem of_visit (hd : d.Lawful) (h : Placed d t place above) {tasks : List Task}
    (hv : ((t.visit s).run d.fileSystem).ending = .ok tasks) (hu : u ∈ tasks) :
    ∃ q, Placed d u q (place :: above) := by
  obtain ⟨children, hl, c, hc, hu⟩ := Disk.mem_tasks_of_visit hv hu
  rw [Disk.list_placed h hl] at hc
  obtain ⟨⟨n, e⟩, hn, rfl⟩ := List.mem_map.mp hc
  have hn := Disk.mem_children.mp hn
  obtain ⟨name, real, viaLink, -, -, hkind, -, hback, rfl⟩ := mem_subtasks.mp hu
  rcases Disk.kind?_eq_directory.mp hkind with ⟨rfl, rfl, -⟩ | ⟨-, hr, hdir, rfl⟩
  · -- A plain directory is entered unchecked, a link only if the guard lets it pass.
    exact ⟨_, h.enter_child hd name hn⟩
  · obtain ⟨q, hq, -⟩ := h.enter_real hd name (Disk.realPath_of_resolve hr) hdir (hback rfl)
    exact ⟨q, hq⟩

theorem of_stepDown (hd : d.Lawful) (h : Placed d t place above) {component : Text}
    (hs : ((s.stepDown t component).run d.fileSystem).ending = .ok (some u)) :
    ∃ q, Placed d u q (place :: above) ∧ d.DirectoryAt u.path q := by
  rw [(Disk.run_stepDown d s t component).2] at hs
  split at hs
  · cases hs
  · split at hs
    · split at hs <;> cases hs
    · next real hr =>
      split at hs
      · next hgo =>
        obtain ⟨hdir, hback⟩ : d.isDirectory real = true ∧ t.leadsBack real = false := by
          simpa using hgo
        cases hs
        exact h.enter_real hd component hr hdir hback
      · cases hs

theorem of_descend (hd : d.Lawful) {components : List Text} (h : Placed d t place above)
    (hat : d.DirectoryAt t.path place)
    (hs : ((s.descend components t).run d.fileSystem).ending = .ok (some u)) :
    ∃ q qs, Placed d u q qs ∧ d.DirectoryAt u.path q := by
  induction components generalizing t place above with
  | nil =>
    cases hs
    exact ⟨place, above, h, hat⟩
  | cons component components ih =>
    obtain ⟨next, hnext, hs⟩ := Dialogue.ending_bind_eq_ok.mp hs
    cases next with
    | none => cases hs
    | some next =>
      obtain ⟨q, hq, hat⟩ := h.of_stepDown hd hnext
      exact ih hq hat hs

end Task.Placed

namespace Selection

/-- The tasks of a search below `base`: those that it may begin with, and those that visits give. -/
inductive Created (s : Selection) (fs : FileSystem) (base : Path) : Task → Prop where
  | start {components : List Text} {t : Task} :
      ((s.beginAlong components base).run fs).ending = .ok (some t) → Created s fs base t
  | visit {t u : Task} {tasks : List Task} : Created s fs base t →
      ((t.visit s).run fs).ending = .ok tasks → u ∈ tasks → Created s fs base u

end Selection

namespace Disk

variable {d : Disk} {s : Selection} {base : Path}

theorem run_baseTask (d : Disk) (base : Path) :
    ((Selection.baseTask base).run d.fileSystem).found = [] ∧
    ((Selection.baseTask base).run d.fileSystem).ending =
      match d.realPath base with
      | .error err => .error (.error (.ofIo err base))
      | .ok real =>
        if d.isDirectory real then .ok ⟨base, [], real, []⟩
        else .error (.error (.notADirectory base)) := by
  unfold Selection.baseTask
  cases hr : d.realPath base with
  | error err =>
    have hq : d.fileSystem (.canonicalize base) = .error (.ofIo err base) := by
      show answer _ (d.realPath _) = _
      rw [hr]
      rfl
    simp only [Dialogue.query, Dialogue.ask_bind, Dialogue.done_bind, Dialogue.run, hq]
    exact ⟨rfl, rfl⟩
  | ok real =>
    have hq : d.fileSystem (.canonicalize base) = .ok real := by
      show answer _ (d.realPath _) = _
      rw [hr]
      rfl
    simp only [Dialogue.query, Dialogue.ask_bind, Dialogue.done_bind, Dialogue.run, hq,
      Dialogue.demand]
    cases hdir : d.isDirectory real <;> simp [fileSystem, hdir, Dialogue.run]

theorem placed_baseTask (hd : d.Lawful) {t : Task}
    (h : ((Selection.baseTask base).run d.fileSystem).ending = .ok t) :
    ∃ place, t.Placed d place [] ∧ d.DirectoryAt t.path place := by
  rw [(run_baseTask d base).2] at h
  split at h
  · cases h
  · next real hr =>
    split at h
    · next hdir =>
      cases h
      obtain ⟨place, rfl, hat⟩ := (isDirectory_of_realPath hd hr).mp hdir
      refine ⟨place, ⟨rfl, rfl, by simp [hat.get?_eq], fun q hq => hq.unique (hat.leads hd), ?_⟩, hat⟩
      exact List.pairwise_singleton _ _
    · cases h

end Disk

namespace Selection.Created

variable {d : Disk} {s : Selection} {base : Path} {t : Task}

/-- All tasks of a search keep the invariant. -/
theorem placed (hd : d.Lawful) (h : s.Created d.fileSystem base t) :
    ∃ place above, t.Placed d place above := by
  induction h with
  | @start components t hs =>
    obtain ⟨first, hfirst, hs⟩ := Dialogue.ending_bind_eq_ok.mp hs
    obtain ⟨place, hplaced, hat⟩ := Disk.placed_baseTask hd hfirst
    obtain ⟨q, qs, hq, -⟩ := hplaced.of_descend hd hat hs
    exact ⟨q, qs, hq⟩
  | visit _ hv hu ih =>
    obtain ⟨place, above, hplaced⟩ := ih
    obtain ⟨q, hq⟩ := hplaced.of_visit hd hv hu
    exact ⟨q, _, hq⟩

end Selection.Created

end TreeGlob
