import TreeGlob.Proofs.Selection.Start
import TreeGlob.Proofs.Text.RoundTrip

/-!
The start directory as it is cut out of the bytes of the patterns. A text is stored as bytes, a cut is
made at the offset of a byte, and a cut inside a character has no result.

* `Utf8.slice` cuts a text, and `Utf8.slice_eq_some_iff` says which cuts have a result.
* `Utf8.sharedBytes` and `Utf8.lastSeparator` are the offsets at which the start directory is cut;
  `Utf8.slice_sharedBytes` and `Utf8.sliceDirectory_eq` say what these cuts leave.
* `isPrefix_commonStart` and `Closed.isPrefix_upToSeparator` say that no more could be kept.
* `Selection.startDirectory_longest` is the main result.
-/
namespace TreeGlob

/-! ## Cuts -/

namespace Utf8

/-- The text in the first `stop` bytes of a text; nothing if there are fewer bytes or the last of them
leave a character unfinished. -/
def slice (text : Text) (stop : Nat) : Option Text :=
  if stop ≤ (encode text).length then decode? ((encode text).take stop) else none

def charIndices : (offset : Nat) → Text → List (Nat × Char)
  | _, [] => []
  | offset, c :: text => (offset, c) :: charIndices (offset + (encodeChar c).length) text

/-- How many bytes of the first text are taken by the characters that both texts begin with: the end of
the last character before they part. -/
def sharedBytes (common text : Text) : Nat :=
  let shared := ((charIndices 0 common).zip text).takeWhile fun x => x.1.2 = x.2
  (shared.getLast?.map fun x => x.1.1 + (encodeChar x.1.2).length).getD 0

def lastSeparator (text : Text) : Option Nat :=
  ((charIndices 0 text).reverse.find? fun x => x.2 = '/').map (·.1)

def sliceDirectory (text : Text) : Option Text :=
  match lastSeparator text with
  | some pos => slice text (pos + 1)
  | none => some []

theorem encode_cons (c : Char) (text : Text) : encode (c :: text) = encodeChar c ++ encode text :=
  List.flatMap_cons

theorem encode_append (text more : Text) : encode (text ++ more) = encode text ++ encode more :=
  List.flatMap_append

theorem encode_isPrefix_iff {start text : Text} : encode start <+: encode text ↔ start <+: text := by
  constructor
  · intro h
    obtain ⟨rest, hrest⟩ := h
    have hunits := units_encode_append start rest
    rw [hrest, units_encode] at hunits
    obtain ⟨front, back, rfl, hfront, -⟩ := List.map_eq_append_iff.mp hunits
    obtain rfl := (List.map_inj_right fun _ _ => Option.some.inj).mp hfront
    exact List.prefix_append front back
  · intro h
    obtain ⟨rest, rfl⟩ := h
    rw [encode_append]
    exact List.prefix_append _ _

/-- A cut has a result just if it is made where the bytes of a beginning of the text end, and the
result is that beginning. -/
theorem slice_eq_some_iff {text start : Text} {stop : Nat} :
    slice text stop = some start ↔ start <+: text ∧ (encode start).length = stop := by
  constructor
  · intro h
    rw [slice] at h
    split at h
    · next hstop =>
      have hbytes := encode_of_decode? h
      refine ⟨encode_isPrefix_iff.mp (hbytes ▸ List.take_prefix stop _), ?_⟩
      rw [hbytes, List.length_take, Nat.min_eq_left hstop]
    · cases h
  · intro h
    obtain ⟨hstart, rfl⟩ := h
    have hbytes := encode_isPrefix_iff.mpr hstart
    rw [slice, if_pos hbytes.length_le, ← List.prefix_iff_eq_take.mp hbytes, decode?_encode]

/-! ## Where the texts part -/

theorem sharedBytes_from (offset : Nat) (common text : Text) :
    (((((charIndices offset common).zip text).takeWhile fun x => x.1.2 = x.2).getLast?.map
      fun x => x.1.1 + (encodeChar x.1.2).length).getD offset) =
        offset + (encode (commonStart common text)).length := by
  induction common generalizing offset text with
  | nil => cases text <;> rfl
  | cons a common ih =>
    cases text with
    | nil => rfl
    | cons b text =>
      by_cases hab : a = b
      · subst hab
        have hlength : (encode (commonStart (a :: common) (a :: text))).length =
            (encodeChar a).length + (encode (commonStart common text)).length := by
          rw [commonStart, if_pos rfl, encode_cons, List.length_append]
        -- The end of the first character is where the rest begins to be shared.
        rw [hlength, ← Nat.add_assoc, ← ih]
        simp only [charIndices, List.zip_cons_cons, List.takeWhile_cons, decide_true, if_true,
          List.getLast?_cons, Option.map_some, Option.getD_some]
        cases ((charIndices (offset + (encodeChar a).length) common).zip text).takeWhile
          (fun x => x.1.2 = x.2) |>.getLast? <;> rfl
      · simp [charIndices, commonStart, hab, encode]

theorem slice_sharedBytes (common text : Text) :
    slice common (sharedBytes common text) = some (commonStart common text) := by
  rw [slice_eq_some_iff]
  refine ⟨commonStart_prefix_left common text, ?_⟩
  have hshared := sharedBytes_from 0 common text
  rw [Nat.zero_add] at hshared
  exact hshared.symm

theorem lastSeparator_from (offset : Nat) (text : Text) :
    ((charIndices offset text).reverse.find? fun x => x.2 = '/').map (·.1 + 1) =
      if upToSeparator text = [] then none
      else some (offset + (encode (upToSeparator text)).length) := by
  induction text generalizing offset with
  | nil => rfl
  | cons c text ih =>
    have hcons : ((charIndices offset (c :: text)).reverse.find? fun x => x.2 = '/').map (·.1 + 1) =
        (((charIndices (offset + (encodeChar c).length) text).reverse.find?
          fun x => x.2 = '/').map (·.1 + 1)).or (if c = '/' then some (offset + 1) else none) := by
      simp only [charIndices, List.reverse_cons, List.find?_append, Option.map_or]
      by_cases hc : c = '/' <;> simp [hc]
    rw [hcons, ih, upToSeparator]
    cases hk : upToSeparator text with
    | nil =>
      by_cases hc : c = '/'
      · subst hc
        rfl
      · simp [hc]
    | cons b kept =>
      simp only [reduceCtorEq, if_false, Option.some_or, encode_cons, List.length_append,
        Nat.add_assoc]

theorem sliceDirectory_eq (text : Text) : sliceDirectory text = some (upToSeparator text) := by
  have hlast := lastSeparator_from 0 text
  rw [sliceDirectory, lastSeparator]
  cases hfind : (charIndices 0 text).reverse.find? fun x => x.2 = '/' with
  | none =>
    rw [hfind] at hlast
    by_cases hnil : upToSeparator text = []
    · rw [hnil]
      rfl
    · rw [if_neg hnil] at hlast
      cases hlast
  | some x =>
    rw [hfind] at hlast
    by_cases hnil : upToSeparator text = []
    · rw [if_pos hnil] at hlast
      cases hlast
    · rw [if_neg hnil, Nat.zero_add] at hlast
      exact slice_eq_some_iff.mpr ⟨upToSeparator_isPrefix text, (Option.some.inj hlast).symm⟩

end Utf8

/-- The directory of a pattern, cut out of the constant that the pattern starts with. -/
def Pattern.sliceDirectory (p : Pattern) : Option Text :=
  match p.segments with
  | .constant text :: _ => Utf8.sliceDirectory text
  | _ => some []

theorem Pattern.sliceDirectory_eq (p : Pattern) : p.sliceDirectory = some p.directory := by
  unfold sliceDirectory directory
  cases p.segments with
  | nil => rfl
  | cons s segments =>
    cases s with
    | constant text => exact Utf8.sliceDirectory_eq text
    | anyChar | bracket | star | globstar => rfl

namespace Selection

variable {s : Selection}

/-- The start directory, cut out of the directories of the included patterns: what is common to those
seen so far is cut again for each further one, and at last behind its last separator. -/
def sliceStart (s : Selection) : Option Text :=
  if s.included.any (!·.dialect.caseSensitive) then some []
  else do
    match ← s.included.mapM (·.sliceDirectory) with
    | [] => some []
    | first :: others =>
      let common ← others.foldlM (fun common text => Utf8.slice common (Utf8.sharedBytes common text))
        first
      Utf8.sliceDirectory common

/-- No cut is made inside a character, and what is cut out is the start directory. -/
theorem sliceStart_eq (s : Selection) : s.sliceStart = some s.startDirectory := by
  have hdirectories : s.included.mapM (·.sliceDirectory) = some (s.included.map (·.directory)) := by
    rw [funext Pattern.sliceDirectory_eq]
    exact List.mapM_pure
  have hcommon : ∀ (others : List Text) (first : Text),
      others.foldlM (fun common text => Utf8.slice common (Utf8.sharedBytes common text)) first =
        some (others.foldl commonStart first) := by
    intro others first
    rw [funext fun common => funext (Utf8.slice_sharedBytes common)]
    exact List.foldlM_pure
  unfold sliceStart startDirectory
  split
  · rfl
  · rw [hdirectories, Option.bind_eq_bind, Option.bind_some]
    cases s.included.map (·.directory) with
    | nil => rfl
    | cons first others =>
      simp only [hcommon, Option.bind_eq_bind, Option.bind_some, Utf8.sliceDirectory_eq]

end Selection

/-! ## Nothing more in common -/

theorem isPrefix_commonStart {text s t : Text} (hs : text <+: s) (ht : text <+: t) :
    text <+: commonStart s t := by
  induction text generalizing s t with
  | nil => exact List.nil_prefix
  | cons c text ih =>
    obtain ⟨s, rfl, hstail⟩ := List.cons_prefix_iff.mp hs
    obtain ⟨t, rfl, httail⟩ := List.cons_prefix_iff.mp ht
    rw [commonStart, if_pos rfl]
    exact List.cons_prefix_cons.mpr ⟨rfl, ih hstail httail⟩

theorem isPrefix_foldl_commonStart {text first : Text} {others : List Text} (hf : text <+: first)
    (ho : ∀ other ∈ others, text <+: other) : text <+: others.foldl commonStart first := by
  induction others generalizing first with
  | nil => exact hf
  | cons other others ih =>
    obtain ⟨hother, ho⟩ := List.forall_mem_cons.mp ho
    exact ih (isPrefix_commonStart hf hother) ho

theorem Closed.isPrefix_upToSeparator {start text : Text} (hc : Closed start) (h : start <+: text) :
    start <+: upToSeparator text := by
  induction text generalizing start with
  | nil => exact h
  | cons c text ih =>
    cases start with
    | nil => exact List.nil_prefix
    | cons b start =>
      obtain ⟨rfl, htail⟩ := List.cons_prefix_cons.mp h
      have hkept := ih (hc.of_suffix (List.suffix_cons b start)) htail
      rw [upToSeparator]
      cases hk : upToSeparator text with
      | nil =>
        rw [hk, List.prefix_nil] at hkept
        subst hkept
        have hb : b = '/' := by simpa using hc.resolve_left (List.cons_ne_nil b [])
        rw [if_pos hb]
      | cons d kept => exact List.cons_prefix_cons.mpr ⟨rfl, hk ▸ hkept⟩

namespace Selection

variable {s : Selection}

/-- A closed text that the directories of all included patterns begin with is a beginning of the start
directory. -/
theorem isPrefix_startDirectory {text : Text} (hcase : ∀ p ∈ s.included, p.dialect.caseSensitive = true)
    (hne : s.included ≠ []) (hc : Closed text) (h : ∀ p ∈ s.included, text <+: p.directory) :
    text <+: s.startDirectory := by
  have hsensitive : ¬s.included.any (!·.dialect.caseSensitive) = true := by
    simpa using hcase
  have hdirectories : ∀ other ∈ s.included.map (·.directory), text <+: other := by
    simpa using h
  rw [startDirectory, if_neg hsensitive]
  cases hd : s.included.map (·.directory) with
  | nil => exact (hne (List.map_eq_nil_iff.mp hd)).elim
  | cons first others =>
    rw [hd, List.forall_mem_cons] at hdirectories
    exact hc.isPrefix_upToSeparator (isPrefix_foldl_commonStart hdirectories.1 hdirectories.2)

/-- **The start directory is cut out without cutting a character, and is the longest there is.** It is
empty or a separator ends it. It is empty if case does not count for some included pattern. Otherwise
it is empty if nothing is included, and else of all such texts that the directories of the included
patterns begin with it is the one that all others are beginnings of; and what an included pattern
matches begins with it. -/
theorem startDirectory_longest (s : Selection) :
    s.sliceStart = some s.startDirectory ∧ Closed s.startDirectory ∧
    ((∃ p ∈ s.included, p.dialect.caseSensitive = false) → s.startDirectory = []) ∧
    ((∀ p ∈ s.included, p.dialect.caseSensitive = true) →
      (s.included = [] → s.startDirectory = []) ∧
      (∀ p ∈ s.included, s.startDirectory <+: p.directory) ∧
      (s.included ≠ [] → ∀ text, Closed text → (∀ p ∈ s.included, text <+: p.directory) →
        text <+: s.startDirectory) ∧
      ∀ p ∈ s.included, ∀ path, p.accepts path = true → s.startDirectory <+: path) := by
  refine ⟨sliceStart_eq s, closed_startDirectory s, ?_, ?_⟩
  · intro hfolds
    by_contra hne
    obtain ⟨p, hp, hfold⟩ := hfolds
    rw [(startDirectory_isPrefix hp hne).1] at hfold
    cases hfold
  · intro hcase
    have hbegins : ∀ p ∈ s.included, s.startDirectory <+: p.directory := by
      intro p hp
      by_cases hnil : s.startDirectory = []
      · exact hnil ▸ List.nil_prefix
      · exact (startDirectory_isPrefix hp hnil).2
    refine ⟨?_, hbegins, ?_, ?_⟩
    · intro hnone
      simp [startDirectory, hnone]
    · intro hne text hc h
      exact isPrefix_startDirectory hcase hne hc h
    · intro p hp path h
      exact (hbegins p hp).trans (Pattern.directory_isPrefix (hcase p hp) h)

/-- Two directories that part inside a component, right behind a character of several bytes. -/
theorem startDirectory_longest_in_component :
    let s : Selection :=
      ⟨[⟨"ß/é/a*".toList, [.constant "ß/é/a".toList, .star], {}⟩,
        ⟨"ß/éa/b".toList, [.constant "ß/éa/b".toList], {}⟩], [], false⟩
    s.startDirectory = "ß/".toList ∧ s.sliceStart = some "ß/".toList ∧
      ∀ p ∈ s.included, ∀ path, p.accepts path = true → "ß/".toList <+: path := by
  intro s
  have hstart : s.startDirectory = "ß/".toList := by decide
  have hlongest := startDirectory_longest s
  have hbegins := (hlongest.2.2.2 (by decide)).2.2.2
  rw [hstart] at hlongest hbegins
  exact ⟨hstart, hlongest.1, hbegins⟩

end Selection

end TreeGlob
