import TreeGlob.Proofs.Disk.Leads

/-!
How a walk along a path goes.

* `walk_name_cases` says all that a walk for a real path can do at a name, and `Disk.Spells` are the
  walks that come to an end.
* `walk_append` says how a walk goes on: what the first steps leave of the links is what the next ones
  may use, whatever the next ones are for.
* `short_of_spells` and `walk_follow_of_spells` say that what a walk for a real path finds is found
  again, by its real path and by any walk that follows links.
-/
namespace TreeGlob

/-- The absolute path of the place can be handed to the system. -/
def Place.Short (p : Place) : Prop := (Disk.pathTo p).bytes.length < maxPathLength

namespace Place

theorem short_nil : Short [] := by
  rw [Short]
  decide

theorem Short.dropLast {p : Place} (h : p.Short) : Short p.dropLast := by
  rcases List.eq_nil_or_concat p with rfl | ⟨q, n, rfl⟩
  · exact h
  · rw [List.concat_eq_append, Short, Disk.bytes_pathTo_append, List.length_append,
      List.length_cons] at h
    rw [List.concat_eq_append, List.dropLast_concat, Short]
    cases q with
    | nil => exact short_nil
    | cons m q =>
      simp only [Disk.pathTo]
      omega

instance (p : Place) : Decidable p.Short := inferInstanceAs (Decidable (_ < _))

end Place

/-- Every absolute path on the disk can be handed to the system. -/
def Disk.Fits (d : Disk) : Prop := ∀ p, d.get? p ≠ none → p.Short

theorem Disk.fits_iff {d : Disk} : d.Fits ↔ ∀ row ∈ d.entries, Place.Short row.1 := by
  refine ⟨?_, ?_⟩
  · intro h row hrow
    exact h row.1 (by simp [(mem_entries.mp hrow).2])
  · intro h p hp
    by_cases hnil : p = []
    · rw [hnil]
      exact Place.short_nil
    · obtain ⟨e, he⟩ := Option.ne_none_iff_exists'.mp hp
      exact h (p, e) (mem_entries.mpr ⟨hnil, he⟩)

instance (d : Disk) : Decidable d.Fits := decidable_of_iff' _ Disk.fits_iff

namespace LastName

theorem refuses_spell_eq_false {p : Place} : LastName.spell.refuses p = false ↔ p.Short := by
  simp [refuses, Place.Short]

theorem refuses_eq_false {p : Place} (h : p.Short) (mode : LastName) : mode.refuses p = false := by
  cases mode with
  | spell => exact refuses_spell_eq_false.mpr h
  | unseen | keep | follow | create => rfl

end LastName

namespace Disk

variable {d : Disk} {mode : LastName} {links : Nat} {p : Place} {n : Name} {steps : List Step}
  {slash : Bool}

/-! ## One step of a walk -/

@[simp] theorem walk_nil : d.walk mode links p [] slash = .ok ⟨p, none, slash⟩ := by
  cases links <;> rfl

theorem walk_here (h : steps ≠ []) :
    d.walk mode links p (.here :: steps) slash = d.walk mode links p steps slash := by
  cases links <;> simp [walk, walkSteps, h]

theorem walk_up (h : steps ≠ []) :
    d.walk mode links p (.up :: steps) slash = d.walk mode links p.dropLast steps slash := by
  cases links <;> simp [walk, walkSteps, h]

@[simp] theorem walk_here_last :
    d.walk mode links p [.here] slash = .ok ⟨p, some .here, slash⟩ := by
  cases links <;> simp [walk, walkSteps]

@[simp] theorem walk_up_last : d.walk mode links p [.up] slash = .ok ⟨p, some .up, slash⟩ := by
  cases links <;> simp [walk, walkSteps]

theorem walk_dir (hn : n.length ≤ maxNameLength) (hr : mode.refuses (p ++ [n]) = false)
    (hd : d.get? (p ++ [n]) = some .dir) (h : steps ≠ []) :
    d.walk mode links p (.name n :: steps) slash = d.walk mode links (p ++ [n]) steps slash := by
  have hn := Nat.not_lt.mpr hn
  cases links <;> simp [walk, walkSteps, h, hn, hr, hd]

theorem walk_link {target : Path} (hn : n.length ≤ maxNameLength)
    (hr : mode.refuses (p ++ [n]) = false) (hl : d.get? (p ++ [n]) = some (.link target))
    (h : steps = [] → mode.skips slash = false ∧ mode.keeps slash = false) :
    d.walk mode (links + 1) p (.name n :: steps) slash =
      d.walk mode links (if target.route.absolute then [] else p) (target.route.steps ++ steps)
        (if steps = [] then slash || target.route.slash else slash) := by
  have hn := Nat.not_lt.mpr hn
  have hs : ¬(steps = [] ∧ mode.skips slash = true) := fun ⟨he, ht⟩ => by simp [(h he).1] at ht
  have hk : ¬(steps = [] ∧ mode.keeps slash = true) := fun ⟨he, ht⟩ => by simp [(h he).2] at ht
  rw [walk, walkSteps, if_neg hs, if_neg (by simp [hn, hr]), hl]
  simp only [if_neg hk]

theorem walk_last (hn : n.length ≤ maxNameLength) (hr : mode.refuses (p ++ [n]) = false)
    (hs : mode.skips slash = false)
    (hl : mode.keeps slash = true ∨ ∀ target, d.get? (p ++ [n]) ≠ some (.link target)) :
    d.walk mode links p [.name n] slash = .ok ⟨p, some (.name n), slash⟩ := by
  have hn := Nat.not_lt.mpr hn
  cases links <;>
  · rw [walk, walkSteps, if_neg (by simp [hs]), if_neg (by simp [hn, hr])]
    split
    · next target hg =>
      rcases hl with hk | hl
      · rw [if_pos ⟨rfl, hk⟩]
      · exact (hl target hg).elim
    · rw [if_pos rfl]

theorem walk_name_refused (hs : steps ≠ [] ∨ mode.skips slash = false)
    (hr : mode.refuses (p ++ [n]) = true) :
    d.walk mode links p (.name n :: steps) slash = .error (.os Errno.nameTooLong) := by
  have hs : ¬(steps = [] ∧ mode.skips slash = true) := by
    intro hyp
    obtain ⟨he, ht⟩ := hyp
    rcases hs with h | h
    · exact h he
    · simp [h] at ht
  cases links <;>
  · rw [walk, walkSteps, if_neg hs, if_pos (.inr hr)]

/-- All that a walk for a real path can do at a name: it follows a link, ends, or enters a directory. -/
theorem walk_name_cases {s : Spot} (h : d.walk .spell links p (.name n :: steps) slash = .ok s) :
    n.length ≤ maxNameLength ∧ (p ++ [n]).Short ∧
      ((∃ target left, links = left + 1 ∧ d.get? (p ++ [n]) = some (.link target) ∧
          d.walk .spell left (if target.route.absolute then [] else p)
            (target.route.steps ++ steps)
            (if steps = [] then slash || target.route.slash else slash) = .ok s) ∨
        (steps = [] ∧ (∀ target, d.get? (p ++ [n]) ≠ some (.link target)) ∧
          s = ⟨p, some (.name n), slash⟩) ∨
        (steps ≠ [] ∧ d.get? (p ++ [n]) = some .dir ∧
          d.walk .spell links (p ++ [n]) steps slash = .ok s)) := by
  -- A walk for a real path looks at the length of every name and of every place.
  have hpass : n.length ≤ maxNameLength ∧ (p ++ [n]).Short := by
    by_cases hr : maxNameLength < n.length ∨ LastName.spell.refuses (p ++ [n]) = true
    · cases links <;> simp [walk, walkSteps, hr, LastName.skips] at h
    · obtain ⟨hn, hr⟩ := not_or.mp hr
      exact ⟨Nat.not_lt.mp hn, LastName.refuses_spell_eq_false.mp (by simpa using hr)⟩
  obtain ⟨hn, hshort⟩ := hpass
  have hr := LastName.refuses_eq_false hshort .spell
  refine ⟨hn, hshort, ?_⟩
  by_cases hl : ∃ target, d.get? (p ++ [n]) = some (.link target)
  · obtain ⟨target, hl⟩ := hl
    left
    cases links with
    | zero => simp [walk, walkSteps, hl, hr, Nat.not_lt.mpr hn, LastName.skips, LastName.keeps] at h
    | succ left =>
      rw [walk_link hn hr hl (fun _ => ⟨rfl, rfl⟩)] at h
      exact ⟨target, left, rfl, hl, h⟩
  · have hl := not_exists.mp hl
    right
    by_cases hs : steps = []
    · subst hs
      rw [walk_last hn hr rfl (.inr hl)] at h
      exact .inl ⟨rfl, hl, (Except.ok.inj h).symm⟩
    · have hdir : d.get? (p ++ [n]) = some .dir := by
        cases hg : d.get? (p ++ [n]) with
        | none => cases links <;> simp [walk, walkSteps, hs, Nat.not_lt.mpr hn, hr, hg] at h
        | some e =>
          cases e with
          | dir => rfl
          | link target => exact (hl target hg).elim
          | file contents => cases links <;> simp [walk, walkSteps, hs, Nat.not_lt.mpr hn, hr, hg] at h
      rw [walk_dir hn hr hdir hs] at h
      exact .inr ⟨hs, hdir, h⟩

/-! ## Whole walks -/

/-- The walks for a real path that come to an end, step by step. -/
inductive Spells (d : Disk) : Nat → Place → List Step → Bool → Spot → Prop where
  | stay {links : Nat} {p : Place} {slash : Bool} : Spells d links p [] slash ⟨p, none, slash⟩
  | hereLast {links : Nat} {p : Place} {slash : Bool} :
      Spells d links p [.here] slash ⟨p, some .here, slash⟩
  | here {links : Nat} {p : Place} {steps : List Step} {slash : Bool} {s : Spot} : steps ≠ [] →
      Spells d links p steps slash s → Spells d links p (.here :: steps) slash s
  | upLast {links : Nat} {p : Place} {slash : Bool} :
      Spells d links p [.up] slash ⟨p, some .up, slash⟩
  | up {links : Nat} {p : Place} {steps : List Step} {slash : Bool} {s : Spot} : steps ≠ [] →
      Spells d links p.dropLast steps slash s → Spells d links p (.up :: steps) slash s
  | link {links : Nat} {p : Place} {n : Name} {steps : List Step} {slash : Bool} {s : Spot}
      {target : Path} : n.length ≤ maxNameLength → (p ++ [n]).Short →
      d.get? (p ++ [n]) = some (.link target) →
      Spells d links (if target.route.absolute then [] else p) (target.route.steps ++ steps)
        (if steps = [] then slash || target.route.slash else slash) s →
      Spells d (links + 1) p (.name n :: steps) slash s
  | last {links : Nat} {p : Place} {n : Name} {slash : Bool} : n.length ≤ maxNameLength →
      (p ++ [n]).Short → (∀ target, d.get? (p ++ [n]) ≠ some (.link target)) →
      Spells d links p [.name n] slash ⟨p, some (.name n), slash⟩
  | enter {links : Nat} {p : Place} {n : Name} {steps : List Step} {slash : Bool} {s : Spot} :
      n.length ≤ maxNameLength → (p ++ [n]).Short → d.get? (p ++ [n]) = some .dir → steps ≠ [] →
      Spells d links (p ++ [n]) steps slash s → Spells d links p (.name n :: steps) slash s

theorem spells_of_walk {s : Spot} (h : d.walk .spell links p steps slash = .ok s) :
    d.Spells links p steps slash s := by
  -- A link may bring in more steps than are left, but there is one link less to follow then.
  induction links using Nat.strongRecOn generalizing p steps slash with
  | ind links ihl =>
    induction steps generalizing p with
    | nil =>
      rw [walk_nil] at h
      cases h
      exact .stay
    | cons x steps ih =>
      cases x with
      | here =>
        by_cases hs : steps = []
        · subst hs
          rw [walk_here_last] at h
          cases h
          exact .hereLast
        · rw [walk_here hs] at h
          exact (ih h).here hs
      | up =>
        by_cases hs : steps = []
        · subst hs
          rw [walk_up_last] at h
          cases h
          exact .upLast
        · rw [walk_up hs] at h
          exact (ih h).up hs
      | name n =>
        obtain ⟨hn, hshort, hlink | ⟨rfl, hl, rfl⟩ | ⟨hs, hdir, h⟩⟩ := walk_name_cases h
        · obtain ⟨target, left, rfl, hl, h⟩ := hlink
          exact (ihl left (Nat.lt_succ_self left) h).link hn hshort hl
        · exact .last hn hshort hl
        · exact (ih h).enter hn hshort hdir hs

/-- A walk for a real path goes on as any walk would: what its steps leave of the links is what the
next ones may use. -/
theorem walk_append {s : Spot} (h : d.Spells links p steps slash s)
    (hd : d.get? s.place = some .dir) :
    ∃ left, ∀ mode more slash', more ≠ [] →
      d.walk mode links p (steps ++ more) slash' = d.walk mode left s.place more slash' := by
  -- Nothing is last any more once there is more to come: each case ends as one that goes on.
  induction h with
  | @stay links => exact ⟨links, fun mode more slash' _ => rfl⟩
  | @hereLast links => exact ⟨links, fun mode more slash' hm => walk_here hm⟩
  | @upLast links => exact ⟨links, fun mode more slash' hm => walk_up hm⟩
  | @last links _ _ _ hn hshort _ =>
    refine ⟨links, ?_⟩
    intro mode more slash' hm
    exact walk_dir hn (LastName.refuses_eq_false hshort mode) hd hm
  | here _ _ ih =>
    obtain ⟨left, hleft⟩ := ih hd
    refine ⟨left, ?_⟩
    intro mode more slash' hm
    rw [List.cons_append, walk_here (by simp [hm]), hleft mode more slash' hm]
  | up _ _ ih =>
    obtain ⟨left, hleft⟩ := ih hd
    refine ⟨left, ?_⟩
    intro mode more slash' hm
    rw [List.cons_append, walk_up (by simp [hm]), hleft mode more slash' hm]
  | enter hn hshort hdir _ _ ih =>
    obtain ⟨left, hleft⟩ := ih hd
    refine ⟨left, ?_⟩
    intro mode more slash' hm
    have hr := LastName.refuses_eq_false hshort mode
    rw [List.cons_append, walk_dir hn hr hdir (by simp [hm]), hleft mode more slash' hm]
  | link hn hshort hl _ ih =>
    obtain ⟨left, hleft⟩ := ih hd
    refine ⟨left, ?_⟩
    intro mode more slash' hm
    have hr := LastName.refuses_eq_false hshort mode
    rw [List.cons_append, walk_link hn hr hl (fun he => by simp [hm] at he), ← List.append_assoc,
      hleft mode more _ hm, if_neg (by simp [hm])]

theorem walk_follow_of_spells {s : Spot} (h : d.Spells links p steps slash s) :
    d.walk .follow links p steps slash = .ok s := by
  induction h with
  | stay => exact walk_nil
  | hereLast => exact walk_here_last
  | upLast => exact walk_up_last
  | here hs _ ih => rwa [walk_here hs]
  | up hs _ ih => rwa [walk_up hs]
  | last hn _ hl => exact walk_last hn rfl rfl (.inr hl)
  | enter hn _ hdir hs _ ih => rwa [walk_dir hn rfl hdir hs]
  | link hn _ hl _ ih => rwa [walk_link hn rfl hl (fun _ => ⟨rfl, rfl⟩)]

theorem short_of_spells {s : Spot} (h : d.Spells links p steps slash s) (hp : p.Short) :
    s.place.Short := by
  induction h with
  | stay | hereLast => exact hp
  | upLast => exact hp.dropLast
  | here _ _ ih => exact ih hp
  | up _ _ ih => exact ih hp.dropLast
  | last _ hshort _ => exact hshort
  | enter _ hshort _ _ _ ih => exact ih hshort
  | link _ _ _ _ ih =>
    apply ih
    split
    · exact Place.short_nil
    · exact hp

theorem walk_names (links : Nat) (slash : Bool) {names : List Name}
    (hn : ∀ n ∈ names, n.length ≤ maxNameLength) (hd : d.get? (p ++ names) = some .dir) :
    ∃ s, d.walk .follow links p (names.map .name) slash = .ok s ∧ s.place = p ++ names := by
  induction names generalizing p with
  | nil => exact ⟨_, walk_nil, (List.append_nil p).symm⟩
  | cons n names ih =>
    have hlen := hn n List.mem_cons_self
    have hrest := fun m hm => hn m (List.mem_cons_of_mem n hm)
    rw [List.append_cons] at hd
    rw [List.map_cons]
    by_cases hs : names = []
    · subst hs
      rw [List.append_nil] at hd
      exact ⟨_, walk_last hlen rfl rfl (.inr (by simp [hd])), rfl⟩
    · have hdir := get?_above (by rw [hd]; simp) hs
      obtain ⟨s, hw, hplace⟩ := ih hrest hd
      refine ⟨s, ?_, by rw [hplace, List.append_cons p n names]⟩
      rw [walk_dir hlen rfl hdir (by simpa using hs), hw]

end Disk

end TreeGlob
