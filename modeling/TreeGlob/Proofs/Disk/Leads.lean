import TreeGlob.Proofs.Disk.Spelling

/-!
Where paths lead, without regard to limits. `Disk.Leads d p steps q` says that the steps taken from
the directory at `p` end at the entry at `q`, links followed wherever they are met. It leaves out what
the system refuses for other reasons: too many links, names or paths that are too long.

* `Leads.unique` says that steps lead to one place only, `Leads.split` that they can be cut anywhere.
* `leads_of_locate` and `leads_of_realPath` say that what the system resolves is where a path leads.

The converse fails, since the system may refuse a path that leads somewhere.
-/
namespace TreeGlob

namespace Disk

inductive Leads (d : Disk) : Place → List Step → Place → Prop where
  | stay (p : Place) : Leads d p [] p
  | here {p q : Place} {steps : List Step} : Leads d p steps q → Leads d p (.here :: steps) q
  | up {p q : Place} {steps : List Step} : Leads d p.dropLast steps q → Leads d p (.up :: steps) q
  | enter {p q : Place} {n : Name} {steps : List Step} : d.get? (p ++ [n]) = some .dir →
      Leads d (p ++ [n]) steps q → Leads d p (.name n :: steps) q
  | follow {p q : Place} {n : Name} {steps : List Step} {target : Path} :
      d.get? (p ++ [n]) = some (.link target) →
      Leads d (if target.route.absolute then [] else p) (target.route.steps ++ steps) q →
      Leads d p (.name n :: steps) q
  | file {p : Place} {n : Name} {contents : Bytes} : d.get? (p ++ [n]) = some (.file contents) →
      Leads d p [.name n] (p ++ [n])

namespace Leads

variable {d : Disk}

theorem unique {p q q' : Place} {steps : List Step} (h : Leads d p steps q)
    (h' : Leads d p steps q') : q = q' := by
  induction h with
  | stay => cases h'; rfl
  | here _ ih => cases h' with | here h' => exact ih h'
  | up _ ih => cases h' with | up h' => exact ih h'
  | enter hd _ ih =>
    cases h' with
    | enter _ h' => exact ih h'
    | follow hl _ => simp [hd] at hl
    | file hf => simp [hd] at hf
  | follow hl _ ih =>
    cases h' with
    | enter hd _ => simp [hl] at hd
    | follow hl' h' =>
      obtain rfl : _ = _ := Entry.link.inj (Option.some.inj (hl.symm.trans hl'))
      exact ih h'
    | file hf => simp [hl] at hf
  | file hf =>
    cases h' with
    | enter hd _ => simp [hf] at hd
    | follow hl _ => simp [hf] at hl
    | file _ => rfl

theorem split {p q : Place} {first second : List Step} (h : Leads d p (first ++ second) q) :
    ∃ m, Leads d p first m ∧ Leads d m second q := by
  generalize hs : first ++ second = steps at h
  -- Induction on the derivation; a link puts the steps of its target before those that are cut.
  induction h generalizing first with
  | stay p =>
    obtain ⟨rfl, rfl⟩ := List.append_eq_nil_iff.mp hs
    exact ⟨p, .stay p, .stay p⟩
  | @here p q steps h ih =>
    cases first with
    | nil =>
      obtain rfl := hs
      exact ⟨p, .stay p, h.here⟩
    | cons x first =>
      obtain ⟨rfl, ht⟩ := List.cons.inj hs
      obtain ⟨m, h1, h2⟩ := ih ht
      exact ⟨m, h1.here, h2⟩
  | @up p q steps h ih =>
    cases first with
    | nil =>
      obtain rfl := hs
      exact ⟨p, .stay p, h.up⟩
    | cons x first =>
      obtain ⟨rfl, ht⟩ := List.cons.inj hs
      obtain ⟨m, h1, h2⟩ := ih ht
      exact ⟨m, h1.up, h2⟩
  | @enter p q n steps hd h ih =>
    cases first with
    | nil =>
      obtain rfl := hs
      exact ⟨p, .stay p, h.enter hd⟩
    | cons x first =>
      obtain ⟨rfl, ht⟩ := List.cons.inj hs
      obtain ⟨m, h1, h2⟩ := ih ht
      exact ⟨m, h1.enter hd, h2⟩
  | @follow p q n steps target hl h ih =>
    cases first with
    | nil =>
      obtain rfl := hs
      exact ⟨p, .stay p, h.follow hl⟩
    | cons x first =>
      obtain ⟨rfl, rfl⟩ := List.cons.inj hs
      obtain ⟨m, h1, h2⟩ := ih (List.append_assoc _ _ _)
      exact ⟨m, h1.follow hl, h2⟩
  | @file p n contents hf =>
    cases first with
    | nil =>
      obtain rfl := hs
      exact ⟨p, .stay p, .file hf⟩
    | cons x first =>
      obtain ⟨rfl, ht⟩ := List.cons.inj hs
      obtain ⟨rfl, rfl⟩ := List.append_eq_nil_iff.mp ht
      exact ⟨p ++ [n], .file hf, .stay _⟩

theorem entry {p q : Place} {steps : List Step} (h : Leads d p steps q) (hp : d.get? p = some .dir) :
    d.get? q = some .dir ∨ ∃ contents, d.get? q = some (.file contents) := by
  induction h with
  | stay => exact .inl hp
  | here _ ih => exact ih hp
  | up _ ih => exact ih (get?_dropLast_of_dir hp)
  | enter hd _ ih => exact ih hd
  | follow _ _ ih => exact ih (by split <;> simp [hp])
  | file hf => exact .inr ⟨_, hf⟩

end Leads

variable {d : Disk}

theorem leads_name_dir {p q : Place} {n : Name} (hd : d.get? (p ++ [n]) = some .dir)
    (h : d.Leads p [.name n] q) : q = p ++ [n] :=
  h.unique ((Leads.stay _).enter hd)

theorem leads_names {p : Place} {names : List Name} {e : Entry}
    (h : d.get? (p ++ names) = some e) (he : ∀ target, e ≠ .link target) :
    d.Leads p (names.map .name) (p ++ names) := by
  induction names generalizing p with
  | nil => simpa using Leads.stay p
  | cons n names ih =>
    rw [List.append_cons] at h ⊢
    rw [List.map_cons]
    by_cases hn : names = []
    · subst hn
      simp only [List.append_nil, List.map_nil] at h ⊢
      cases e with
      | dir => exact (Leads.stay _).enter h
      | file contents => exact .file h
      | link target => exact (he target rfl).elim
    · -- The name that is left behind is one of a directory, since there is something in it.
      exact (ih h).enter (get?_above (by rw [h]; simp) hn)

/-! ## What the system resolves -/

theorem place_of_arrive {s : Spot} {q : Place} {e : Entry} (h : d.arrive s = .ok (q, e)) :
    q = s.place := by
  unfold arrive at h
  split at h
  · cases h
  · cases h; rfl
  · split at h <;> cases h
    rfl

theorem route_of_spelled {path : Path} {route : Route} (h : path.spelled = .ok route) :
    route = path.route := by
  unfold Path.spelled Path.requireNoZero at h
  split at h
  · cases h
  · obtain ⟨-, -, h⟩ := bind_eq_ok_iff.mp h
    split at h <;> cases h
    rfl

theorem route_of_admit {path : Path} {route : Route} (h : path.admit = .ok route) :
    route = path.route ∧ path.spelled = .ok path.route ∧ path.bytes.length < maxPathLength := by
  obtain ⟨r, hs, h⟩ := bind_eq_ok_iff.mp h
  obtain rfl := route_of_spelled hs
  split at h
  · cases h
  · next hlen =>
    cases h
    exact ⟨rfl, hs, Nat.not_le.mp hlen⟩

theorem walk_of_locate {mode : LastName} {path : Path} {q : Place} {e : Entry}
    (h : d.locate mode path = .ok (q, e)) :
    ∃ s, path.bytes.length < maxPathLength ∧
      d.walk mode maxLinks [] path.route.steps path.route.slash = .ok s ∧
      d.arrive s = .ok (q, e) := by
  obtain ⟨s, hs, harrive⟩ := bind_eq_ok_iff.mp h
  obtain ⟨route, hr, hwalk⟩ := bind_eq_ok_iff.mp hs
  obtain ⟨rfl, -, hlen⟩ := route_of_admit hr
  exact ⟨s, hlen, hwalk, harrive⟩

theorem walk_of_realPath {path real : Path} (h : d.realPath path = .ok real) :
    ∃ s e, d.walk .spell maxLinks [] path.route.steps path.route.slash = .ok s ∧
      d.arrive s = .ok (s.place, e) ∧ real = pathTo s.place := by
  obtain ⟨route, hr, h⟩ := bind_eq_ok_iff.mp h
  obtain rfl := route_of_spelled hr
  obtain ⟨s, hw, h⟩ := bind_eq_ok_iff.mp h
  obtain ⟨⟨q, e⟩, ha, h⟩ := bind_eq_ok_iff.mp h
  obtain rfl := place_of_arrive ha
  exact ⟨s, e, hw, ha, (Except.ok.inj h).symm⟩

/-- A walk that follows every link ends where its steps lead, if it does so from wherever a link is
followed to. -/
theorem leads_of_walkSteps {mode : LastName} (hm : mode = .follow ∨ mode = .spell)
    {onLink : Place → List Step → Bool → Except IoError Spot}
    (hl : ∀ place steps slash s q e, onLink place steps slash = .ok s → d.arrive s = .ok (q, e) →
      d.Leads place steps q)
    {place : Place} {steps : List Step} {slash : Bool} {s : Spot} {q : Place} {e : Entry}
    (h : d.walkSteps mode onLink place steps slash = .ok s) (ha : d.arrive s = .ok (q, e)) :
    d.Leads place steps q := by
  have hskip : mode.skips slash = false := by rcases hm with rfl | rfl <;> rfl
  have hkeep : mode.keeps slash = false := by rcases hm with rfl | rfl <;> rfl
  have hplace := place_of_arrive ha
  fun_induction walkSteps d mode onLink place steps slash with
  | case1 => cases h; exact hplace ▸ .stay _
  | case2 => cases h; exact hplace ▸ .here (.stay _)
  | case3 _ _ _ _ ih => exact (ih h hskip hkeep).here
  | case4 => cases h; exact hplace ▸ .up (.stay _)
  | case5 _ _ _ _ ih => exact (ih h hskip hkeep).up
  | case6 _ _ _ _ hlast => simp [hskip] at hlast
  | case8 _ _ _ _ _ _ _ _ hlast => simp [hkeep] at hlast
  | case9 _ _ _ _ _ _ _ hlink => exact .follow hlink (hl _ _ _ _ _ _ h ha)
  | case10 place n _ _ _ hlink =>
    -- The last step is a name, and what it names is no link.
    cases h
    subst hplace
    have he : d.get? (place ++ [n]) = some e := get?_of_arrive ha
    show d.Leads place [.name n] (place ++ [n])
    cases e with
    | dir => exact (Leads.stay _).enter he
    | file contents => exact .file he
    | link target => exact (hlink target he).elim
  | case11 _ _ _ _ _ _ _ _ hd ih => exact .enter hd (ih h hskip hkeep)
  | case7 | case12 | case13 => cases h

theorem leads_of_walk {mode : LastName} (hm : mode = .follow ∨ mode = .spell) {links : Nat}
    {place : Place} {steps : List Step} {slash : Bool} {s : Spot} {q : Place} {e : Entry}
    (h : d.walk mode links place steps slash = .ok s) (ha : d.arrive s = .ok (q, e)) :
    d.Leads place steps q := by
  induction links generalizing place steps slash s q e with
  | zero => exact leads_of_walkSteps hm (fun _ _ _ _ _ _ h => by cases h) h ha
  | succ links ih => exact leads_of_walkSteps hm (fun _ _ _ _ _ _ h ha => ih h ha) h ha

theorem leads_of_locate {path : Path} {q : Place} {e : Entry}
    (h : d.locate .follow path = .ok (q, e)) : d.Leads [] path.route.steps q := by
  obtain ⟨s, -, hw, ha⟩ := walk_of_locate h
  exact leads_of_walk (.inl rfl) hw ha

/-- The real path of a path is the absolute path of the entry that it leads to. -/
theorem leads_of_realPath {path real : Path} (h : d.realPath path = .ok real) :
    ∃ q, real = pathTo q ∧ d.Leads [] path.route.steps q := by
  obtain ⟨s, e, hw, ha, hr⟩ := walk_of_realPath h
  exact ⟨s.place, hr, leads_of_walk (.inr rfl) hw ha⟩

end Disk

end TreeGlob
