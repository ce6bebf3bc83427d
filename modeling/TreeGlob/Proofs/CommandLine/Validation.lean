import TreeGlob.CommandLine.Program
import TreeGlob.Proofs.Disk.Missing
import TreeGlob.Proofs.Search.Filtering

/-!
What the check of the arguments says about the search.

The check asks whether the base leads to a directory. The search asks for the real path of the base, and
whether that is one of a directory. The answers differ for paths that are too long only: the check does
not take a base that is spelled too long, the search does not take one whose real path is.

* `Disk.walk_spell_of_follow` and `Disk.realPath_of_isDirectory` say that what leads to a directory has
  a real path, unless that is too long; `DirectoryAt.isDirectory` and `DirectoryAt.exists_refused` say
  whether a path with a real path leads anywhere.
* `Selection.Interrupted` are the ways in which a search below a directory fails, and
  `Selection.interrupted_of_failure` says that there is no other.
* `Arguments.validate_agrees_with_search` is the main result, and `Arguments.too_long_for_one_of_them`
  shows that its two exceptions occur.
-/
namespace TreeGlob

namespace Disk

variable {d : Disk} {links : Nat} {p b : Place} {n : Name} {steps : List Step} {slash : Bool} {s : Spot}
  {path : Path}

/-! ## Real paths -/

theorem entry_of_walk_name (h : d.walk .follow links p (.name n :: steps) slash = .ok s)
    (hthere : d.get? s.place ≠ none) : n.length ≤ maxNameLength ∧ d.get? (p ++ [n]) ≠ none := by
  have hlen : n.length ≤ maxNameLength := by
    by_contra hlong
    rw [walk_name_unfit (fun hfits => hlong hfits.1) fun _ => rfl] at h
    cases h
  refine ⟨hlen, ?_⟩
  intro hnone
  by_cases hne : steps = []
  · subst hne
    rw [walk_last hlen rfl rfl (.inr (by simp [hnone]))] at h
    cases h
    exact hthere hnone
  · rw [walk_missing hlen rfl hnone hne] at h
    cases h

/-- A walk that follows links to an entry ends there as well when it is for a real path, unless it comes
to a place whose path is too long. -/
theorem walk_spell_of_follow (h : d.walk .follow links p steps slash = .ok s)
    (hthere : d.get? s.place ≠ none) :
    d.walk .spell links p steps slash = .ok s ∨
      d.walk .spell links p steps slash = .error (.os Errno.nameTooLong) ∧ ¬d.Fits := by
  -- A link may bring in more steps than are left, but there is one link less to follow then.
  induction links using Nat.strongRecOn generalizing p steps slash with
  | ind links ihl =>
    induction steps generalizing p with
    | nil =>
      rw [walk_nil] at h ⊢
      exact .inl h
    | cons x steps ih =>
      cases x with
      | here =>
        by_cases hne : steps = []
        · subst hne
          rw [walk_here_last] at h ⊢
          exact .inl h
        · rw [walk_here hne] at h ⊢
          exact ih h
      | up =>
        by_cases hne : steps = []
        · subst hne
          rw [walk_up_last] at h ⊢
          exact .inl h
        · rw [walk_up hne] at h ⊢
          exact ih h
      | name n =>
        obtain ⟨hlen, hentry⟩ := entry_of_walk_name h hthere
        by_cases hshort : (p ++ [n]).Short
        · have hr := LastName.refuses_eq_false hshort .spell
          cases hg : d.get? (p ++ [n]) with
          | none => exact (hentry hg).elim
          | some entry =>
            by_cases hlast : steps = [] ∧ ∀ target, entry ≠ .link target
            · obtain ⟨rfl, hlink⟩ := hlast
              rw [walk_last hlen rfl rfl (.inr (by simpa [hg] using hlink))] at h
              rw [walk_last hlen hr rfl (.inr (by simpa [hg] using hlink))]
              exact .inl h
            cases entry with
            | link target =>
              cases links with
              | zero =>
                rw [walk_link_zero hlen rfl hg fun _ => ⟨rfl, rfl⟩] at h
                cases h
              | succ links =>
                rw [walk_link hlen rfl hg fun _ => ⟨rfl, rfl⟩] at h
                rw [walk_link hlen hr hg fun _ => ⟨rfl, rfl⟩]
                exact ihl links (Nat.lt_succ_self links) h
            | file contents =>
              rw [walk_file hlen rfl hg (by simpa using hlast)] at h
              cases h
            | dir =>
              rw [walk_dir hlen rfl hg (by simpa using hlast)] at h
              rw [walk_dir hlen hr hg (by simpa using hlast)]
              exact ih h
        · have hr : LastName.spell.refuses (p ++ [n]) = true := by
            simpa using mt LastName.refuses_spell_eq_false.mp hshort
          exact .inr ⟨walk_name_refused (.inr rfl) hr, fun hfits => hshort (hfits _ hentry)⟩

/-- What leads to a directory has its real path, unless that or the path of an entry on the way is too
long. -/
theorem realPath_of_isDirectory (h : d.isDirectory path = true) :
    (∃ b, d.DirectoryAt path b) ∨
      d.realPath path = .error (.os Errno.nameTooLong) ∧ ¬d.Fits := by
  obtain ⟨q, hq⟩ := locate_of_isDirectory h
  obtain ⟨s, hs, harrive⟩ := bind_eq_ok_iff.mp hq
  obtain ⟨route, hroute, hwalk⟩ := bind_eq_ok_iff.mp hs
  obtain ⟨rfl, hspelled, -⟩ := route_of_admit hroute
  obtain rfl := place_of_arrive harrive
  have hdir := get?_of_arrive harrive
  rcases walk_spell_of_follow hwalk (by simp [hdir]) with hspell | ⟨hrefused, hfits⟩
  · refine .inl ⟨s.place, ?_, hdir⟩
    simp [realPath, hspelled, bind, Except.bind, hspell, harrive]
  · refine .inr ⟨?_, hfits⟩
    simp [realPath, hspelled, bind, Except.bind, hrefused]

theorem exists_of_isDirectory (h : d.isDirectory path = true) : d.exists? path = true := by
  obtain ⟨q, hq⟩ := locate_of_isDirectory h
  simp [exists?, stat, hq, Except.map, Except.toBool]

namespace DirectoryAt

theorem isDirectory (hd : d.Lawful) (h : d.DirectoryAt path b)
    (hs : path.bytes.length < maxPathLength) : d.isDirectory path = true := by
  simp [Disk.isDirectory, stat, h.locate hd hs, Except.map]

theorem exists_refused (h : d.DirectoryAt path b) (hs : maxPathLength ≤ path.bytes.length) :
    d.exists? path = false := by
  simp [exists?, stat, h.locate_refused .follow hs, Except.map, Except.toBool]

theorem child_dot (hd : d.Lawful) (h : d.DirectoryAt path b) : d.DirectoryAt (path.child [dot]) b := by
  obtain ⟨s, hspells, rfl⟩ := h.spells hd
  obtain ⟨left, hleft⟩ := walk_append hspells h.get?_eq
  obtain ⟨hzero, -⟩ := spelled_eq_ok.mp (spelled_of_realPath h.realPath_eq)
  have hsep : separator ∉ [dot] := by decide
  have hspelled : (path.child [dot]).spelled = .ok (path.child [dot]).route :=
    spelled_eq_ok.mpr
      ⟨zero_not_mem_child hzero hsep (by decide), Path.bytes_child_ne_nil path (by decide) hsep⟩
  have hwalk : ∀ slash, d.walk .spell maxLinks [] (path.child [dot]).route.steps slash =
      .ok ⟨s.place, some .here, slash⟩ := by
    intro slash
    rw [Path.steps_child path (by decide) hsep, hleft .spell _ slash (by simp)]
    exact walk_here_last
  have harrive : ∀ slash, d.arrive ⟨s.place, some .here, slash⟩ = .ok (s.place, .dir) := by
    intro slash
    have hdir : d.get? (Spot.place ⟨s.place, some .here, slash⟩) = some .dir := h.get?_eq
    unfold arrive
    rw [hdir]
    rfl
  refine ⟨?_, h.get?_eq⟩
  simp [realPath, hspelled, bind, Except.bind, hwalk, harrive]

theorem descend_dots (hd : d.Lawful) (h : d.DirectoryAt path b) (count : Nat) :
    d.DirectoryAt (path.descend (List.replicate count ['.'])) b := by
  induction count generalizing path with
  | zero => exact h
  | succ count ih => exact ih (h.child_dot hd)

end DirectoryAt

end Disk

/-! ## How a search fails -/

theorem Transcript.failure_report {α : Type} {t : Transcript α} {why : Failure} :
    t.report.failure = some why ↔ t.ending = .error why := by
  rw [report]
  cases t.ending <;> simp

namespace Selection

variable {d : Disk} {s : Selection} {base : Path} {b : Place} {strategy : Strategy} {r : Report}
  {why : Failure}

/-- What a search below a directory fails for: it is refused a real path on the way down to where it
begins, or the listing of a directory. -/
inductive Interrupted (d : Disk) (s : Selection) (base : Path) (listed : List Path) : Failure → Prop where
  | goingDown {way : List Text} {err : IoError} : way ≠ [] → way <+: s.startComponents →
      d.realPath (base.descend way) = .error err → err.kind ≠ .notFound →
      Interrupted d s base listed (.error (.ofIo err (base.descend way)))
  | listing {path : Path} {err : IoError} : path ∈ listed → d.list path = .error err →
      Interrupted d s base listed (.error (.ofIo err path))

theorem interrupted_of_ofListing {asked : List Query} {listed : List Path} (h : why.OfListing d asked)
    (hlisted : listedIn asked ⊆ listed) : s.Interrupted d base listed why := by
  obtain ⟨path, err, hp, hl, rfl⟩ := h
  exact .listing (hlisted (mem_listedIn.mpr hp)) hl

/-- A search that has nothing to begin with comes to no more than looking for a beginning does. -/
theorem CanReport.eq_of_not_begun {start : Dialogue (Option Task)} {fs : FileSystem} {extent : Extent}
    (hr : s.CanReport start fs extent strategy r)
    (h : ∀ t, (start.run fs).ending ≠ .ok (some t)) : r = (start.run fs).report := by
  cases hs : (start.run fs).ending with
  | error other =>
    cases strategy with
    | sequential => exact hr.trans (sequentialFrom_of_error hs)
    | parallel =>
      obtain ⟨pick, rfl⟩ := hr
      exact parallelFrom_of_error hs
  | ok found =>
    cases found with
    | none =>
      cases strategy with
      | sequential => exact hr.trans (sequentialFrom_of_none hs)
      | parallel =>
        obtain ⟨pick, rfl⟩ := hr
        exact parallelFrom_of_none hs
    | some t => exact (h t hs).elim

/-- A search below a directory fails only while it goes down to where it begins, or at a listing. -/
theorem interrupted_of_failure (hd : d.Lawful) (hb : d.DirectoryAt base b)
    (hr : s.CanReport (s.begin base) d.fileSystem d.extent strategy r) (hwhy : r.failure = some why) :
    s.Interrupted d base r.listed why := by
  by_cases hbegun : ∃ t, ((s.begin base).run d.fileSystem).ending = .ok (some t)
  · obtain ⟨t, ht⟩ := hbegun
    cases strategy with
    | sequential =>
      obtain rfl : r = _ := hr.trans (congrArg Transcript.report (sequentialFrom_of_some ht))
      have hend : ((s.visitAll d.extent.depth t).run d.fileSystem).ending = .error why :=
        Transcript.failure_report.mp hwhy
      rcases Dialogue.StopsAtListings.visitAll s _ t why hend with rfl | hlisting
      · exact (visitAll_breaks_off (Created.ends hd (.start ht)) hend rfl).elim
      · refine interrupted_of_ofListing hlisting ?_
        rw [Transcript.report, listedIn_append]
        exact List.subset_append_right _ _
    | parallel =>
      obtain ⟨pick, rfl⟩ := hr
      rw [parallelFrom_of_some ht, if_pos (Created.isOver_run hd (.start ht) pick)] at hwhy ⊢
      have hlisting := ((Pool.kept_stopsAtListings d s).run_start t pick d.extent.steps).2 why hwhy
      refine interrupted_of_ofListing hlisting ?_
      rw [listedIn_append]
      exact List.subset_append_right _ _
  · obtain rfl := hr.eq_of_not_begun (not_exists.mp hbegun)
    have hend := Transcript.failure_report.mp hwhy
    rw [ending_begin hd hb] at hend
    obtain ⟨way, err, hne, hpre, hreal, hkind, rfl⟩ := descend_eq_error hend
    exact .goingDown hne hpre hreal hkind

end Selection

/-! ## The check -/

theorem Path.isAbsolute_join {p : Path} (h : p.isAbsolute = true) (q : Path) :
    (p.join q).isAbsolute = true := by
  have hhead : p.bytes.head? = some separator := by simpa [isAbsolute] using h
  have hne : p.bytes ≠ [] := by
    intro hnil
    simp [hnil] at hhead
  unfold join
  split
  · next hq => simpa [hne] using hq
  · split <;> simp [isAbsolute, hhead]

namespace Arguments

variable {d : Disk} {current : Path}

/-- The search that the arguments ask for is accepted. -/
def Accepted (a : Arguments) (d : Disk) (current : Path) : Prop :=
  ∃ feed, d.fileSystem.find d.extent a.settings (a.base current) a.includedGlobs a.excluded = .ok feed

/-- The base passes the checks that the search begins with. -/
def Based (a : Arguments) (d : Disk) (current : Path) : Prop :=
  ∃ t, ((Selection.baseTask (a.base current)).run d.fileSystem).ending = .ok t

theorem accepted_iff (a : Arguments) (h : current.isAbsolute = true) :
    a.Accepted d current ↔ ∃ s, Selection.ofGlobs a.settings a.includedGlobs a.excluded = .ok s := by
  unfold Accepted FileSystem.find prepare
  rw [if_pos (show (a.base current).isAbsolute = true from Path.isAbsolute_join h _)]
  cases Selection.ofGlobs a.settings a.includedGlobs a.excluded with
  | error e => simp [bind, Except.bind]
  | ok s => simp [bind, Except.bind, pure, Except.pure]

theorem based_iff (hd : d.Lawful) (a : Arguments) :
    a.Based d current ↔ ∃ b, d.DirectoryAt (a.base current) b := by
  unfold Based
  rw [(Disk.run_baseTask d (a.base current)).2]
  constructor
  · intro hyp
    obtain ⟨t, ht⟩ := hyp
    split at ht
    · cases ht
    · next real hr =>
      split at ht
      · next hdir =>
        obtain ⟨b, -, hb⟩ := (Disk.isDirectory_of_realPath hd hr).mp hdir
        exact ⟨b, hb⟩
      · cases ht
  · intro hyp
    obtain ⟨b, hb⟩ := hyp
    have hdir := (Disk.isDirectory_of_realPath hd hb.realPath_eq).mpr ⟨b, rfl, hb⟩
    rw [hb.realPath_eq]
    exact ⟨_, if_pos hdir⟩

theorem validate_eq (a : Arguments) (d : Disk) (current : Path) :
    a.validate d.fileSystem current =
      if d.exists? (a.base current) = false then .error (.notFound (a.base current))
      else if d.isDirectory (a.base current) = false then .error (.notADirectory (a.base current))
      else (Selection.ofGlobs a.settings a.includedGlobs a.excluded).map fun _ => () := by
  have hleads : d.fileSystem (.leads (a.base current)) = d.exists? (a.base current) := rfl
  have hdir : d.fileSystem (.isDirectory (a.base current)) = d.isDirectory (a.base current) := rfl
  unfold validate
  dsimp only
  rw [hleads, hdir]
  cases d.exists? (a.base current) <;> cases d.isDirectory (a.base current) <;>
    cases Selection.ofGlobs a.settings a.includedGlobs a.excluded <;> rfl

theorem validate_eq_ok_iff (a : Arguments) :
    a.validate d.fileSystem current = .ok () ↔ d.isDirectory (a.base current) = true ∧
      ∃ s, Selection.ofGlobs a.settings a.includedGlobs a.excluded = .ok s := by
  rw [validate_eq]
  cases hdir : d.isDirectory (a.base current) with
  | false =>
    refine iff_of_false ?_ (by simp)
    split <;> simp
  | true =>
    rw [Disk.exists_of_isDirectory hdir]
    cases Selection.ofGlobs a.settings a.includedGlobs a.excluded <;> simp [Except.map]

/-- **The check of the arguments agrees with the search, but for paths that are too long.** If the check
accepts the arguments, so does the search, and the base passes the checks that the search begins with,
unless it is refused a real path for its length, which takes an entry that deep. If the search accepts
the arguments and the base passes, the check accepts the arguments, unless the base is spelled too long;
then it says that there is none. After the check, a search fails only while it goes down to where it
begins, or at a listing, or for the length of the real path. What is too long is what `Disk.realPath`
refuses. -/
theorem validate_agrees_with_search (hd : d.Lawful) (hcurrent : current.isAbsolute = true)
    (a : Arguments) :
    let base := a.base current
    (a.validate d.fileSystem current = .ok () → a.Accepted d current ∧
      (a.Based d current ∨ d.realPath base = .error (.os Errno.nameTooLong) ∧ ¬d.Fits)) ∧
    (a.Accepted d current → a.Based d current → a.validate d.fileSystem current =
      if base.bytes.length < maxPathLength then .ok () else .error (.notFound base)) ∧
    (a.validate d.fileSystem current = .ok () → ∀ s r why,
      prepare a.settings base a.includedGlobs a.excluded = .ok s →
      s.CanReport (s.begin base) d.fileSystem d.extent a.settings.strategy r → r.failure = some why →
      s.Interrupted d base r.listed why ∨
        why = .error (.ofIo (.os Errno.nameTooLong) base) ∧
          d.realPath base = .error (.os Errno.nameTooLong) ∧ ¬d.Fits) := by
  intro base
  rw [a.accepted_iff hcurrent, based_iff hd]
  refine ⟨?_, ?_, ?_⟩
  · intro hvalid
    obtain ⟨hdir, hread⟩ := a.validate_eq_ok_iff.mp hvalid
    exact ⟨hread, Disk.realPath_of_isDirectory hdir⟩
  · intro hread hbased
    obtain ⟨b, hb⟩ := hbased
    split
    · next hshort => exact a.validate_eq_ok_iff.mpr ⟨hb.isDirectory hd hshort, hread⟩
    · next hlong => rw [validate_eq, if_pos (hb.exists_refused (Nat.not_lt.mp hlong))]
  · intro hvalid s r why _ hr hwhy
    obtain ⟨hdir, -⟩ := a.validate_eq_ok_iff.mp hvalid
    rcases Disk.realPath_of_isDirectory hdir with ⟨b, hb⟩ | ⟨hreal, hfits⟩
    · exact .inl (Selection.interrupted_of_failure hd hb hr hwhy)
    · refine .inr ⟨?_, hreal, hfits⟩
      have hbegin : ((s.begin base).run d.fileSystem).ending =
          .error (.error (.ofIo (.os Errno.nameTooLong) base)) := by
        refine Dialogue.ending_bind_eq_error.mpr (.inl ?_)
        rw [(Disk.run_baseTask d base).2, hreal]
      obtain rfl := hr.eq_of_not_begun (by simp [hbegin])
      exact Except.error.inj ((Transcript.failure_report.mp hwhy).symm.trans hbegin)

/-- The check accepts the root. A search for what is below the link `/loop`, which leads to itself, is
accepted as well and fails on the way down. -/
theorem validate_agrees_with_search_in_circular :
    let a : Arguments := { included := ["loop/x".toList] }
    a.validate Disk.circular.fileSystem .root = .ok () ∧ a.Based Disk.circular .root ∧
      ∃ s why, prepare a.settings (a.base .root) a.includedGlobs a.excluded = .ok s ∧
        (s.search .sequential Disk.circular.fileSystem Disk.circular.extent (a.base .root)).failure =
          some why ∧
        s.Interrupted Disk.circular (a.base .root) [] why := by
  intro a
  obtain ⟨haccepted, hconverse, hfailure⟩ :=
    @validate_agrees_with_search Disk.circular .root (by decide) (by decide) a
  have hvalid : a.validate Disk.circular.fileSystem .root = .ok () := by decide +kernel
  have hfits : Disk.circular.Fits := by decide +kernel
  have hbased := (haccepted hvalid).2.resolve_right fun hyp => hyp.2 hfits
  refine ⟨hvalid, hbased, ?_⟩
  have hrun : (prepare a.settings (a.base .root) a.includedGlobs a.excluded).map (fun s =>
      let r := s.search .sequential Disk.circular.fileSystem Disk.circular.extent (a.base .root)
      (r.listed, r.failure)) =
        .ok ([], some (.error (.ofIo (.os Errno.tooManyLinks) (.ofText "/./loop".toList)))) := by
    decide +kernel
  cases hs : prepare a.settings (a.base .root) a.includedGlobs a.excluded with
  | error e =>
    rw [hs] at hrun
    cases hrun
  | ok s =>
    rw [hs] at hrun
    obtain ⟨hlisted, hwhy⟩ := Prod.mk.inj (Except.ok.inj hrun)
    refine ⟨s, _, rfl, hwhy, ?_⟩
    rcases hfailure hvalid s _ _ hs (s.canReport_search _ _ .sequential _) hwhy with h | h
    · exact hlisted ▸ h
    · exact (h.2.2 hfits).elim

/-! ## Too long for one of them -/

/-- The base spelled with as many dots as would fill a path. -/
def dotted : Arguments where
  directory := joined (List.replicate maxPathLength ['.'])

/-- The directory that as many links in a row lead to. -/
def linkedDown (depth : Nat) : Arguments where
  directory := joined (List.replicate depth ['l'])

end Arguments

def longName : Name := Utf8.encode (List.replicate maxNameLength 'd')

/-- Directories with long names within each other, and next to each a link to it. -/
def Folder.deep : (depth : Nat) → Folder
  | 0 => .empty
  | depth + 1 => .link (Utf8.encode ['l']) ⟨longName⟩ (.dir longName (deep depth) .empty)

def Disk.deep : Disk where
  top := Folder.deep 16

namespace Arguments

theorem pieces_dots : Pieces (List.replicate maxPathLength ['.']) := by
  intro c hc
  rw [List.eq_of_mem_replicate hc]
  decide

theorem base_dotted : dotted.base .root = Path.root.descend (List.replicate maxPathLength ['.']) := by
  refine Path.join_joined pieces_dots ?_ _
  rw [ne_eq, List.replicate_eq_nil_iff]
  decide

/-- Both exceptions occur. A search from the root of an empty disk is accepted, and the root passes its
checks, but spelled with too many dots it is reported as not found. The check accepts a directory deep
down on a disk, since the links that lead there are spelled shortly; but its real path is refused. -/
theorem too_long_for_one_of_them :
    (dotted.Accepted .empty .root ∧ dotted.Based .empty .root ∧
      dotted.validate Disk.empty.fileSystem .root = .error (.notFound (dotted.base .root))) ∧
    (linkedDown 16).validate Disk.deep.fileSystem .root = .ok () ∧ ¬(linkedDown 16).Based .deep .root := by
  have hlawful : Disk.empty.Lawful := by decide
  have hroot : Disk.empty.DirectoryAt .root [] := ⟨rfl, rfl⟩
  have hdotted := hroot.descend_dots hlawful maxPathLength
  rw [← base_dotted] at hdotted
  have hlong : maxPathLength ≤ (dotted.base .root).bytes.length := by
    have hle := Path.length_add_le_descend pieces_dots Path.root
    rw [List.length_replicate] at hle
    rw [base_dotted]
    exact Nat.le_of_add_left_le hle
  have hread : (Selection.ofGlobs dotted.settings dotted.includedGlobs dotted.excluded).toBool = true := by
    decide +kernel
  refine ⟨⟨?_, ?_, ?_⟩, ?_, ?_⟩
  · refine (accepted_iff dotted (by decide)).mpr ?_
    cases hs : Selection.ofGlobs dotted.settings dotted.includedGlobs dotted.excluded with
    | error e =>
      rw [hs] at hread
      cases hread
    | ok s => exact ⟨s, rfl⟩
  · exact (based_iff hlawful dotted).mpr ⟨[], hdotted⟩
  · rw [validate_eq, if_pos (hdotted.exists_refused hlong)]
  · decide +kernel
  · have hreal : Disk.deep.realPath ((linkedDown 16).base .root) = .error (.os Errno.nameTooLong) := by
      decide +kernel
    rw [Based, (Disk.run_baseTask .deep _).2, hreal]
    simp

end Arguments

end TreeGlob
