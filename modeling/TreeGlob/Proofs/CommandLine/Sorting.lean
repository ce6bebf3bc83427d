import TreeGlob.CommandLine.Program
import TreeGlob.Proofs.Search.Ascending

/-!
What the option to sort changes.

* `ArgumentReader.Tracks` is what every way to take words has in common: no flag is lost, and a reader
  that has read the option to sort as well comes to the same arguments, and that flag.
* `Arguments.read_of_sorting` says what the arguments are with the option put among their words.
* `Program.printed_run` reads what is printed off the paths found.
* `Program.sorting_changes_order_only` is the main result.
-/
namespace TreeGlob

/-! ## One more option -/

namespace ArgumentReader

variable {r r' next : ArgumentReader} {words : List Text}

def withFlags (r : ArgumentReader) (flags : List Flag) : ArgumentReader :=
  { r with arguments := { r.arguments with flags } }

@[simp] theorem flags_withFlags (r : ArgumentReader) (flags : List Flag) :
    (r.withFlags flags).arguments.flags = flags := rfl

/-- The second reader has read the same as the first one, and the option to sort. -/
def AlsoSorts (r r' : ArgumentReader) : Prop :=
  ∃ flags, flags.Perm (.sort :: r.arguments.flags) ∧ r' = r.withFlags flags

/-- What is done to a reader keeps the flags, and does the same to one that also sorts, unless it is
that flag itself. -/
structure Tracks (op : ArgumentReader → Except ArgumentStop ArgumentReader) : Prop where
  keeps : ∀ {r next}, op r = .ok next → r.arguments.flags ⊆ next.arguments.flags
  alike : ∀ {r r' next}, r.AlsoSorts r' → op r = .ok next → .sort ∉ next.arguments.flags →
    ∃ next', op r' = .ok next' ∧ next.AlsoSorts next'

variable {op more : ArgumentReader → Except ArgumentStop ArgumentReader}

theorem tracks_ok : Tracks .ok where
  keeps h := by
    cases h
    exact List.Subset.refl _
  alike hsorts h _ := by
    cases h
    exact ⟨_, rfl, hsorts⟩

theorem tracks_error (stop : ArgumentStop) : Tracks fun _ => .error stop where
  keeps h := by cases h
  alike _ h := by cases h

theorem Tracks.bind (hop : Tracks op) (hmore : Tracks more) : Tracks fun r => op r >>= more where
  keeps h := by
    obtain ⟨mid, hmid, h⟩ := bind_eq_ok_iff.mp h
    exact List.Subset.trans (hop.keeps hmid) (hmore.keeps h)
  alike hsorts h hsort := by
    obtain ⟨mid, hmid, h⟩ := bind_eq_ok_iff.mp h
    obtain ⟨mid', hmid', hsorts'⟩ := hop.alike hsorts hmid fun hin => hsort (hmore.keeps h hin)
    obtain ⟨next', hnext', hdone⟩ := hmore.alike hsorts' h hsort
    exact ⟨next', bind_eq_ok_iff.mpr ⟨mid', hmid', hnext'⟩, hdone⟩

theorem tracks_setGlob (o : GlobOption) (value : Text) : Tracks fun r => .ok (r.setGlob o value) where
  keeps h := by
    cases h
    cases o <;> exact List.Subset.refl _
  alike hsorts h _ := by
    obtain ⟨flags, hperm, rfl⟩ := hsorts
    cases h
    cases o <;> exact ⟨_, rfl, flags, hperm, rfl⟩

theorem tracks_setFlag (f : Flag) : Tracks (setFlag · f) where
  keeps h := by
    unfold setFlag at h
    split at h
    · cases h
    · cases h
      exact List.subset_append_left _ _
  alike hsorts h hsort := by
    obtain ⟨flags, hperm, rfl⟩ := hsorts
    unfold setFlag at h ⊢
    split at h
    · cases h
    · next hnew =>
      cases h
      have hother : f ≠ .sort := by
        rintro rfl
        exact hsort (List.mem_append_right _ (List.mem_singleton.mpr rfl))
      have hnew' : f ∉ flags := by
        rw [hperm.mem_iff, List.mem_cons]
        exact not_or.mpr ⟨hother, hnew⟩
      refine ⟨_, if_neg hnew', flags ++ [f], ?_, rfl⟩
      exact hperm.append_right [f]

theorem tracks_settle (hop : Tracks op) : Tracks fun r => r.settle >>= fun _ => op r where
  keeps h := by
    obtain ⟨-, -, h⟩ := bind_eq_ok_iff.mp h
    exact hop.keeps h
  alike hsorts h hsort := by
    obtain ⟨u, hu, h⟩ := bind_eq_ok_iff.mp h
    obtain ⟨next', hnext', hdone⟩ := hop.alike hsorts h hsort
    obtain ⟨flags, -, rfl⟩ := hsorts
    exact ⟨next', bind_eq_ok_iff.mpr ⟨u, hu, hnext'⟩, hdone⟩

theorem tracks_await (o : GlobOption) : Tracks fun r => .ok { r with awaiting := some o } where
  keeps h := by
    cases h
    exact List.Subset.refl _
  alike hsorts h _ := by
    obtain ⟨flags, hperm, rfl⟩ := hsorts
    cases h
    exact ⟨_, rfl, flags, hperm, rfl⟩

theorem tracks_enter (m : Meaning) : Tracks (enter · m) := by
  refine tracks_settle ?_
  cases m with
  | flag f => exact tracks_setFlag f
  | glob o => exact tracks_await o
  | help => exact tracks_error .help
  | version => exact tracks_error .version

theorem tracks_enterWith (m : Meaning) (value : Text) : Tracks (enterWith · m value) := by
  cases m with
  | glob o => exact tracks_settle (tracks_setGlob o value)
  | flag | help | version => exact tracks_error .unwantedValue

theorem tracks_readLong (name : Text) (value : Option Text) : Tracks (readLong · name value) := by
  unfold readLong
  cases Meaning.ofLong? name with
  | none => exact tracks_error .unknownArgument
  | some m =>
    cases value with
    | none => exact tracks_enter m
    | some value => exact tracks_enterWith m value

theorem tracks_readCluster (names : Text) : Tracks (readCluster · names) := by
  induction names with
  | nil => exact tracks_ok
  | cons name rest ih =>
    unfold readCluster
    cases Meaning.ofShort? name with
    | none => exact tracks_error .unknownArgument
    | some m =>
      cases m with
      | glob o =>
        dsimp only
        split
        · exact tracks_enter _
        · exact tracks_enterWith _ _
        · exact tracks_enterWith _ _
      | flag | help | version => exact (tracks_enter _).bind ih

theorem tracks_setDirectory (t : Text) : Tracks (setDirectory · t) where
  keeps h := by
    unfold setDirectory at h
    split at h
    · cases h
    · obtain ⟨-, -, h⟩ := bind_eq_ok_iff.mp h
      cases h
      exact List.Subset.refl _
  alike {r r' next} hsorts h _ := by
    obtain ⟨flags, hperm, rfl⟩ := hsorts
    unfold setDirectory at h ⊢
    split at h
    · cases h
    · next hgiven =>
      have hgiven' : ¬(r.withFlags flags).directoryGiven = true := hgiven
      obtain ⟨u, hu, h⟩ := bind_eq_ok_iff.mp h
      cases h
      rw [if_neg hgiven']
      exact ⟨_, bind_eq_ok_iff.mpr ⟨u, hu, rfl⟩, flags, hperm, rfl⟩

theorem tracks_endOptions : Tracks fun r => .ok { r with optionsEnded := true } where
  keeps h := by
    cases h
    exact List.Subset.refl _
  alike hsorts h _ := by
    obtain ⟨flags, hperm, rfl⟩ := hsorts
    cases h
    exact ⟨_, rfl, flags, hperm, rfl⟩

/-- What reading a word does, given what the words before it have left open. -/
def taking (optionsEnded : Bool) (awaiting : Option GlobOption) (t : Text) :
    ArgumentReader → Except ArgumentStop ArgumentReader :=
  if optionsEnded then (setDirectory · t)
  else
    match Word.ofText t with
    | .endOfOptions => fun r => .ok { r with optionsEnded := true }
    | .long name value => (readLong · name value)
    | .cluster names => (readCluster · names)
    | .plain t =>
      match awaiting with
      | some o => fun r => .ok (r.setGlob o t)
      | none => (setDirectory · t)

theorem read_eq_taking (r : ArgumentReader) (t : Text) :
    r.read t = taking r.optionsEnded r.awaiting t r := by
  unfold read taking
  split
  · rfl
  · cases Word.ofText t with
    | plain t => cases r.awaiting <;> rfl
    | endOfOptions | long | cluster => rfl

theorem tracks_taking (optionsEnded : Bool) (awaiting : Option GlobOption) (t : Text) :
    Tracks (taking optionsEnded awaiting t) := by
  unfold taking
  split
  · exact tracks_setDirectory t
  · cases Word.ofText t with
    | endOfOptions => exact tracks_endOptions
    | long name value => exact tracks_readLong name value
    | cluster names => exact tracks_readCluster names
    | plain t =>
      cases awaiting with
      | some o => exact tracks_setGlob o t
      | none => exact tracks_setDirectory t

theorem tracks_read (t : Text) : Tracks (read · t) where
  keeps {r next} h := by
    rw [read_eq_taking] at h
    exact (tracks_taking _ _ t).keeps h
  alike {r r' next} hsorts h hsort := by
    rw [read_eq_taking] at h
    obtain ⟨next', hnext', hdone⟩ := (tracks_taking _ _ t).alike hsorts h hsort
    obtain ⟨flags, -, rfl⟩ := hsorts
    exact ⟨next', (read_eq_taking _ t).trans hnext', hdone⟩

theorem tracks_foldlM (words : List Text) : Tracks (words.foldlM read ·) := by
  induction words with
  | nil => exact tracks_ok
  | cons t words ih =>
    simp only [List.foldlM_cons]
    exact (tracks_read t).bind ih

theorem read_sort (hended : r.optionsEnded = false) (hawaiting : r.awaiting = none)
    (hsort : .sort ∉ r.arguments.flags) :
    ∃ r', r.read "--sort".toList = .ok r' ∧ r.AlsoSorts r' := by
  have hword : Word.ofText "--sort".toList = .long "sort".toList none := by decide
  have hmeaning : Meaning.ofLong? "sort".toList = some (.flag .sort) := by decide
  have hread : r.read "--sort".toList = r.enter (.flag .sort) := by
    simp only [read, hended, hword, readLong, hmeaning]
    rfl
  have hsettled : r.settle = .ok () := by simp [settle, hawaiting]
  refine ⟨r.withFlags (r.arguments.flags ++ [.sort]), ?_, _, List.perm_append_singleton _ _, rfl⟩
  rw [hread]
  exact bind_eq_ok_iff.mpr ⟨(), hsettled, if_neg hsort⟩

end ArgumentReader

namespace Arguments

variable {a a' : Arguments} {before after : List Text} {r : ArgumentReader}

/-- The second arguments are the same as the first, with the option to sort. -/
structure AlsoSort (a a' : Arguments) : Prop where
  directory : a'.directory = a.directory
  included : a'.included = a.included
  excluded : a'.excluded = a.excluded
  has_sort : a'.has .sort = true
  has : ∀ f, f ≠ .sort → a'.has f = a.has f

/-- With the option to sort put among the words, where options are read, the arguments are the same and
that option. -/
theorem read_of_sorting (ha : Arguments.read (before ++ after) = .ok a) (hsort : a.has .sort = false)
    (hbefore : before.foldlM ArgumentReader.read {} = .ok r) (hended : r.optionsEnded = false)
    (hawaiting : r.awaiting = none) :
    ∃ a', Arguments.read (before ++ "--sort".toList :: after) = .ok a' ∧ a.AlsoSort a' := by
  obtain ⟨last, hlast, hfinish⟩ := bind_eq_ok_iff.mp ha
  rw [List.foldlM_append, hbefore] at hlast
  have hafter : after.foldlM ArgumentReader.read r = .ok last := hlast
  -- The arguments are those of the reader that came to the end.
  obtain ⟨u, hu, hfinish⟩ := bind_eq_ok_iff.mp hfinish
  split at hfinish
  · cases hfinish
  next hconflict =>
  obtain rfl : last.arguments = a := Except.ok.inj hfinish
  have hnot : .sort ∉ last.arguments.flags := by simpa [has] using hsort
  have hkeeps := (ArgumentReader.tracks_foldlM after).keeps hafter
  obtain ⟨r', hr', hsorts⟩ := ArgumentReader.read_sort hended hawaiting fun hin => hnot (hkeeps hin)
  obtain ⟨last', hlast', flags, hperm, rfl⟩ :=
    (ArgumentReader.tracks_foldlM after).alike hsorts hafter hnot
  have hconflict' : ¬(.sequential ∈ (last.withFlags flags).arguments.flags ∧
      .parallel ∈ (last.withFlags flags).arguments.flags) := by
    simpa [hperm.mem_iff] using hconflict
  refine ⟨{ last.arguments with flags }, ?_, ⟨rfl, rfl, rfl, ?_, ?_⟩⟩
  · refine bind_eq_ok_iff.mpr ⟨last.withFlags flags, ?_, bind_eq_ok_iff.mpr ⟨u, hu, if_neg hconflict'⟩⟩
    rw [List.foldlM_append, hbefore]
    exact bind_eq_ok_iff.mpr ⟨r, rfl, bind_eq_ok_iff.mpr ⟨r', hr', hlast'⟩⟩
  · simp [has, hperm.mem_iff]
  · intro f hf
    simp [has, hperm.mem_iff, hf]

/-! ## The same search -/

theorem AlsoSort.base_eq (h : a.AlsoSort a') (current : Path) : a'.base current = a.base current := by
  simp [base, h.directory]

theorem AlsoSort.includedGlobs_eq (h : a.AlsoSort a') : a'.includedGlobs = a.includedGlobs := by
  simp [includedGlobs, h.included]

theorem AlsoSort.settings_eq (h : a.AlsoSort a') : a'.settings = a.settings := by
  simp [settings, strategy?, h.has]

theorem AlsoSort.validate_eq (h : a.AlsoSort a') (fs : FileSystem) (current : Path) :
    a'.validate fs current = a.validate fs current := by
  unfold validate
  rw [h.base_eq, h.settings_eq, h.includedGlobs_eq, h.excluded]

/-- The paths that a sequential search with these arguments finds until it ends or breaks off; none, if
it does not begin. -/
def found (a : Arguments) (fs : FileSystem) (extent : Extent) (current : Path) : List Path :=
  match a.validate fs current, prepare a.settings (a.base current) a.includedGlobs a.excluded with
  | .ok (), .ok s => ((s.sequential extent.depth (a.base current)).run fs).found
  | _, _ => []

theorem AlsoSort.found_eq (h : a.AlsoSort a') (fs : FileSystem) (extent : Extent) (current : Path) :
    a'.found fs extent current = a.found fs extent current := by
  unfold found
  rw [h.validate_eq, h.base_eq, h.settings_eq, h.includedGlobs_eq, h.excluded]

theorem distinct_found {fs : FileSystem} (hfs : fs.Tidy) (hnamed : fs.Named) (a : Arguments)
    (extent : Extent) (current : Path) : ((a.found fs extent current).map Path.key).Nodup := by
  unfold found
  split
  · next s _ hprepare =>
    have habsolute : (a.base current).isAbsolute = true := by
      by_contra hrelative
      simp [prepare, hrelative] at hprepare
    exact Selection.distinct_found hfs hnamed habsolute
  · exact List.nodup_nil

end Arguments

namespace Program

variable {fs : FileSystem} {extent : Extent} {current : Path} {words words' before after : List Text}
  {a a' : Arguments}

theorem order_nil (a : Arguments) : order a [] = [] := by simp [order, Path.sort]

/-- A search that begins prints the paths that it finds, however it ends. -/
theorem printed_search {s : Selection} (hseq : a.settings.strategy = .sequential)
    (hprepare : prepare a.settings (a.base current) a.includedGlobs a.excluded = .ok s) :
    (search a fs extent current).printed =
      (order a ((s.sequential extent.depth (a.base current)).run fs).found).map Path.display := by
  have hpaths := Feed.paths_readAll_ofReport (s.search .sequential fs extent (a.base current))
  unfold search
  dsimp only
  rw [FileSystem.find_of_prepare hprepare, hseq]
  dsimp only
  cases (Feed.ofReport (s.search .sequential fs extent (a.base current))).readAll.failure <;>
  · dsimp only [Outcome.success, Outcome.failure]
    rw [hpaths]
    rfl

theorem printed_run (ha : Arguments.read words = .ok a) (hseq : a.settings.strategy = .sequential) :
    (run fs extent current words).printed =
      (order a (a.found fs extent current)).map Path.display := by
  unfold run Arguments.found
  rw [ha]
  dsimp only
  cases a.validate fs current with
  | error e => simp [Outcome.failure, order_nil]
  | ok _ =>
    dsimp only
    cases hprepare : prepare a.settings (a.base current) a.includedGlobs a.excluded with
    | error e =>
      have hfind : fs.find extent a.settings (a.base current) a.includedGlobs a.excluded = .error e := by
        simp [FileSystem.find, hprepare, bind, Except.bind]
      simp [search, hfind, Outcome.failure, order_nil]
    | ok s => exact printed_search hseq hprepare

/-- The option to sort changes neither the exit code nor the complaint. -/
theorem exit_run_of_alsoSort (ha : Arguments.read words = .ok a) (ha' : Arguments.read words' = .ok a')
    (h : a.AlsoSort a') :
    (run fs extent current words').exit = (run fs extent current words).exit ∧
      (run fs extent current words').complaint = (run fs extent current words).complaint := by
  unfold run
  rw [ha, ha']
  dsimp only
  rw [h.validate_eq]
  cases a.validate fs current with
  | error e => exact ⟨rfl, rfl⟩
  | ok _ =>
    unfold search
    rw [h.base_eq, h.settings_eq, h.includedGlobs_eq, h.excluded]
    dsimp only
    cases fs.find extent a.settings (a.base current) a.includedGlobs a.excluded with
    | error e => exact ⟨rfl, rfl⟩
    | ok feed =>
      dsimp only
      cases feed.readAll.failure <;> exact ⟨rfl, rfl⟩

/-- **Sorting changes the order only.** On a disk of whatever tree, where some questions may be refused,
let the program search sequentially and not sort. With the option to sort put among its arguments, where
options are read, it exits with the same code and complains of the same: the report of the error is the
same, whatever is logged beside it. Without the option it prints the paths as they are found, also those
found before a search breaks off; with it, the same paths, in strictly ascending order of their
components. -/
theorem sorting_changes_order_only {d : Disk} (hd : d.Lawful) {faults : List Fault}
    (hfaults : ∀ f ∈ faults, f.kind ≠ .crash) (extent : Extent) (current : Path) {r : ArgumentReader}
    (ha : Arguments.read (before ++ after) = .ok a) (hsort : a.has .sort = false)
    (hseq : a.settings.strategy = .sequential)
    (hbefore : before.foldlM ArgumentReader.read {} = .ok r) (hended : r.optionsEnded = false)
    (hawaiting : r.awaiting = none) :
    let fs := d.fileSystem.withFaults faults
    let plain := run fs extent current (before ++ after)
    let sorted := run fs extent current (before ++ "--sort".toList :: after)
    let found := a.found fs extent current
    sorted.exit = plain.exit ∧ sorted.complaint = plain.complaint ∧
      plain.printed = found.map Path.display ∧
      sorted.printed = (Path.sort found).map Path.display ∧ (Path.sort found).Perm found ∧
      (Path.sort found).Pairwise fun p q => p.key < q.key := by
  intro fs plain sorted found
  obtain ⟨a', ha', h⟩ := Arguments.read_of_sorting ha hsort hbefore hended hawaiting
  obtain ⟨hexit, hcomplaint⟩ := exit_run_of_alsoSort ha ha' h
  refine ⟨hexit, hcomplaint, ?_, ?_, Path.sort_perm found, ?_⟩
  · rw [printed_run ha hseq, order, if_neg (by simp [hsort])]
  · rw [printed_run ha' (h.settings_eq ▸ hseq), h.found_eq, order, if_pos h.has_sort]
  · exact Path.sort_ascending (Arguments.distinct_found ((Disk.tidy hd).withFaults hfaults)
      ((Disk.named hd).withFaults faults) a extent current)

/-- The directory `/home` is refused when it is to be listed, last of all. Its entries are missing from
both runs, and what was found before is printed by both: by the second in another order, where what is
in `/a` comes before `/home`. -/
theorem sorting_changes_order_only_in_circular :
    ∃ faults : List Fault,
      let fs := Disk.circular.fileSystem.withFaults faults
      let plain := run fs Disk.circular.extent .root (["-i", "**", "--hidden"].map String.toList)
      let sorted := run fs Disk.circular.extent .root (["-i", "**", "--sort", "--hidden"].map String.toList)
      sorted.exit = plain.exit ∧ plain.exit = 1 ∧ sorted.complaint = plain.complaint ∧
        plain.printed = (["/./a", "/./home", "/./a/b", "/./a/self", "/./a/b/up"].map
          (Path.ofText ·.toList)).map Path.display ∧
        sorted.printed = (["/./a", "/./a/b", "/./a/b/up", "/./a/self", "/./home"].map
          (Path.ofText ·.toList)).map Path.display := by
  obtain ⟨faults, hfaults⟩ : ∃ faults : List Fault,
      faults = [⟨.list, .ofText "/home".toList, .permissionDenied⟩] := ⟨_, rfl⟩
  have hread : Arguments.read (["-i", "**"].map String.toList ++ ["--hidden"].map String.toList) =
      .ok { included := ["**".toList], flags := [.hidden] } := by decide +kernel
  have hbefore : (["-i", "**"].map String.toList).foldlM ArgumentReader.read {} =
      .ok { arguments := { included := ["**".toList] } } := by decide +kernel
  obtain ⟨hexit, hcomplaint, hplain, hsorted, -, -⟩ :=
    @sorting_changes_order_only _ _ _ Disk.circular (by decide) faults (by subst hfaults; decide)
      Disk.circular.extent .root _ hread rfl rfl hbefore rfl rfl
  have hfound : Arguments.found { included := ["**".toList], flags := [.hidden] }
      (Disk.circular.fileSystem.withFaults faults) Disk.circular.extent .root =
        ["/./a", "/./home", "/./a/b", "/./a/self", "/./a/b/up"].map (Path.ofText ·.toList) := by
    subst hfaults
    decide +kernel
  refine ⟨faults, hexit, ?_, hcomplaint, ?_, ?_⟩
  · subst hfaults
    decide +kernel
  · exact hplain.trans (congrArg _ hfound)
  · refine hsorted.trans (congrArg _ (Path.sort_eq_of_ascending (by decide +kernel) ?_))
    rw [hfound]
    decide +kernel

end Program

end TreeGlob
