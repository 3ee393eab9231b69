import TekLang.Proofs.Source.Path
import TekLang.Source.Load

/-!
# Loading the sources of a directory

However a directory is gone through, loading it gives one file for each source below it, in the
order of their paths, or fails because one of them is no text. What else lies there does not matter.
-/

namespace TekLang

/-- A source with these contents stands at a location below a directory: a regular file whose name
    has the extension of sources. -/
def Entry.HasSource (here : Entry) (location : Location) (contents : ByteArray) : Prop :=
  here.at? location = some (.file contents) ∧
    ∃ above name, location = above ++ [name] ∧ extension? name = some sourceExtension

/-- The files are the sources below a directory at the path `root`, one for each, and come in the
    order of their paths. -/
structure Loads (root : String) (here : Entry) (files : List SourceFile) : Prop where
  /-- Each location of a source has one file, which lies there and holds the bytes of the source. -/
  matched : ∃ locations : List Location, locations.Nodup ∧
    (∀ location, location ∈ locations ↔ ∃ contents, here.HasSource location contents) ∧
    List.Forall₂ (fun location file => file.path = pathBelow root location ∧
      pathSteps file.path = pathSteps root ++ location.map .entry ∧
      here.HasSource location file.contents.toByteArray) locations files
  increasing : files.Pairwise fun file other => pathBefore file.path other.path = true

/-! ### Reading one after another -/

section Sequence

variable {α β ε : Type} {f : α → Except ε β} {as : List α}

theorem mapM_of_ok {g : α → β} (each : ∀ a ∈ as, f a = .ok (g a)) :
    as.mapM f = .ok (as.map g) := by
  induction as with
  | nil => rfl
  | cons a as ih =>
    obtain ⟨first, others⟩ := List.forall_mem_cons.1 each
    rw [List.mapM_cons, first, ih others]
    rfl

/-- If nothing can go wrong but `e`, and it does go wrong, then that is the outcome. -/
theorem mapM_of_error {e : ε} (each : ∀ a ∈ as, f a = .error e ∨ ∃ b, f a = .ok b)
    (fails : ∃ a ∈ as, f a = .error e) : as.mapM f = .error e := by
  induction as with
  | nil =>
    obtain ⟨a, there, -⟩ := fails
    cases there
  | cons a as ih =>
    obtain ⟨first, others⟩ := List.forall_mem_cons.1 each
    rw [List.mapM_cons]
    rcases first with failed | ⟨b, fine⟩
    · rw [failed]
      rfl
    · obtain ⟨bad, there, failed⟩ := fails
      rcases List.mem_cons.1 there with rfl | there
      · rw [fine] at failed
        cases failed
      · rw [fine, ih others ⟨bad, there, failed⟩]
        rfl

end Sequence

/-- The file that a source is read as. -/
def sourceFile (root : String) (source : Location × ByteArray) : SourceFile :=
  ⟨pathBelow root source.1, (String.fromUTF8? source.2).getD ""⟩

theorem readSource_of_valid {root : String} {source : Location × ByteArray}
    (valid : source.2.IsValidUTF8) :
    readSource (pathBelow root source.1) source.2 = .ok (sourceFile root source) := by
  rw [readSource, sourceFile, String.fromUTF8?, dif_pos valid]
  rfl

theorem readSource_of_invalid {path : String} {contents : ByteArray}
    (invalid : ¬contents.IsValidUTF8) : readSource path contents = .error .notUtf8 := by
  rw [readSource, String.fromUTF8?, dif_neg invalid]

theorem toByteArray_sourceFile {root : String} {source : Location × ByteArray}
    (valid : source.2.IsValidUTF8) :
    (sourceFile root source).contents.toByteArray = source.2 := by
  rw [sourceFile, String.fromUTF8?, dif_pos valid]
  rfl

/-! ### The order of sources -/

theorem SourceFile.le_iff {a b : SourceFile} :
    a.le b = true ↔ pathRank a.path ≤ pathRank b.path := by
  rw [SourceFile.le, Bool.not_eq_true', ← Bool.not_eq_true, pathBefore_iff, not_lt]

/-- What lies at different places below the root. -/
structure Apart (sources : List (Location × ByteArray)) : Prop where
  named : ∀ source ∈ sources, ∀ name ∈ source.1, IsEntryName name
  nodup : (sources.map Prod.fst).Nodup

section Order

variable {root : String} {sources others : List (Location × ByteArray)}

/-- The files that sources are read as, in order. -/
def sortedFiles (root : String) (sources : List (Location × ByteArray)) : List SourceFile :=
  (sources.map (sourceFile root)).mergeSort SourceFile.le

/-- Sorting the files is sorting the sources. -/
theorem exists_sortedFiles_eq_map (root : String) (sources : List (Location × ByteArray)) :
    ∃ sorted : List (Location × ByteArray), sorted.Perm sources ∧
      sortedFiles root sources = sorted.map (sourceFile root) := by
  refine ⟨sources.mergeSort fun a b => (sourceFile root a).le (sourceFile root b),
    List.mergeSort_perm _ _, ?_⟩
  exact (@List.map_mergeSort _ _ _ SourceFile.le (sourceFile root) _ fun _ _ _ _ => rfl).symm

theorem Apart.increasing (apart : Apart sources) :
    (sortedFiles root sources).Pairwise fun file other =>
      pathRank file.path < pathRank other.path := by
  -- Sorting leaves equal paths next to each other, so it has to be shown that there are none.
  have sorted : (sortedFiles root sources).Pairwise fun file other =>
      pathRank file.path ≤ pathRank other.path := by
    refine (List.pairwise_mergeSort (fun a b c => ?_) (fun a b => ?_) _).imp SourceFile.le_iff.1
    · simp only [SourceFile.le_iff]
      exact le_trans
    · simp only [Bool.or_eq_true, SourceFile.le_iff]
      exact le_total _ _
  have different : (sources.map (sourceFile root)).Pairwise fun file other =>
      pathRank file.path ≠ pathRank other.path := by
    refine List.pairwise_map.2 ((List.pairwise_map.1 apart.nodup).imp_of_mem ?_)
    intro source other among among' different same
    exact different (location_eq_of_pathRank_eq (apart.named _ among) (apart.named _ among') same)
  have kept := (List.mergeSort_perm _ SourceFile.le).symm.pairwise different Ne.symm
  exact (sorted.and kept).imp fun both => lt_of_le_of_ne both.1 both.2

/-- The order of the files does not tell in which order the sources were found. -/
theorem Apart.sortedFiles_eq (apart : Apart sources) (perm : sources.Perm others) :
    sortedFiles root sources = sortedFiles root others := by
  have apart' : Apart others :=
    ⟨fun source among => apart.named source (perm.mem_iff.2 among),
      (perm.map Prod.fst).nodup_iff.1 apart.nodup⟩
  refine List.Perm.eq_of_pairwise ?_ apart.increasing apart'.increasing ?_
  · exact fun _ _ _ _ before after => absurd before (lt_asymm after)
  · exact (List.mergeSort_perm _ _).trans
      ((perm.map (sourceFile root)).trans (List.mergeSort_perm _ _).symm)

theorem readSources_of_valid (valid : ∀ source ∈ sources, source.2.IsValidUTF8) :
    readSources root sources = .ok (sortedFiles root sources) := by
  rw [readSources, mapM_of_ok fun source among => readSource_of_valid (valid source among)]
  rfl

theorem readSources_of_invalid (invalid : ∃ source ∈ sources, ¬source.2.IsValidUTF8) :
    readSources root sources = .error .notUtf8 := by
  rw [readSources, mapM_of_error]
  · rfl
  · intro source _
    by_cases valid : source.2.IsValidUTF8
    · exact .inr ⟨_, readSource_of_valid valid⟩
    · exact .inl (readSource_of_invalid valid)
  · obtain ⟨source, among, invalid⟩ := invalid
    exact ⟨source, among, readSource_of_invalid invalid⟩

theorem readSources_perm (apart : Apart sources) (perm : sources.Perm others) :
    readSources root sources = readSources root others := by
  by_cases valid : ∀ source ∈ sources, source.2.IsValidUTF8
  · rw [readSources_of_valid valid, apart.sortedFiles_eq perm,
      readSources_of_valid fun source among => valid source (perm.mem_iff.2 among)]
  · obtain ⟨source, invalid⟩ := not_forall.1 valid
    obtain ⟨among, invalid⟩ := Classical.not_imp.1 invalid
    rw [readSources_of_invalid ⟨source, among, invalid⟩,
      readSources_of_invalid ⟨source, perm.mem_iff.1 among, invalid⟩]

end Order

/-! ### Sources of a directory -/

theorem isNamedSource_iff {location : Location} :
    isNamedSource location = true ↔
      ∃ above name, location = above ++ [name] ∧ extension? name = some sourceExtension := by
  simp only [isNamedSource, decide_eq_true_eq, Option.bind_eq_some_iff, List.getLast?_eq_some_iff]
  exact ⟨fun ⟨name, ⟨above, ends⟩, called⟩ => ⟨above, name, ends, called⟩,
    fun ⟨above, name, ends, called⟩ => ⟨name, ⟨above, ends⟩, called⟩⟩

theorem source?_eq_some_iff {found : Location × Entry} {source : Location × ByteArray} :
    source? found = some source ↔
      found = (source.1, .file source.2) ∧ isNamedSource source.1 = true := by
  obtain ⟨location, entry⟩ := found
  cases entry with
  | directory entries => simp [source?]
  | file contents =>
    rw [source?, Option.ite_none_right_eq_some]
    constructor
    · rintro ⟨named, ⟨⟩⟩
      exact ⟨rfl, named⟩
    · rintro ⟨⟨⟩, named⟩
      exact ⟨named, rfl⟩

section Sources

variable {root : String} {here : Entry} {walked : List (Location × Entry)}
  (gone : here.GoneThrough walked)
include gone

theorem mem_sources_iff {source : Location × ByteArray} :
    source ∈ walked.filterMap source? ↔ here.HasSource source.1 source.2 := by
  simp only [List.mem_filterMap, source?_eq_some_iff]
  constructor
  · rintro ⟨found, among, rfl, named⟩
    exact ⟨(gone.mem_iff _ _).1 among, isNamedSource_iff.1 named⟩
  · rintro ⟨there, named⟩
    exact ⟨_, (gone.mem_iff _ _).2 there, rfl, isNamedSource_iff.2 named⟩

theorem nodup_sources : ((walked.filterMap source?).map Prod.fst).Nodup := by
  refine List.pairwise_map.2 (.filterMap _ ?_ (List.pairwise_map.1 gone.nodup))
  intro found other different source first source' second
  rw [source?_eq_some_iff] at first second
  rwa [first.1, second.1] at different

theorem apart_sources (tree : here.IsTree) : Apart (walked.filterMap source?) :=
  ⟨fun _ among => tree.isEntryName ((mem_sources_iff gone).1 among).1, nodup_sources gone⟩

theorem loads_sortedFiles (tree : here.IsTree)
    (valid : ∀ location contents, here.HasSource location contents → contents.IsValidUTF8) :
    Loads root here (sortedFiles root (walked.filterMap source?)) := by
  have apart := apart_sources gone tree
  refine ⟨?_, apart.increasing.imp pathBefore_iff.2⟩
  obtain ⟨sources, perm, order⟩ := exists_sortedFiles_eq_map root (walked.filterMap source?)
  have among {source : Location × ByteArray} :
      source ∈ sources ↔ here.HasSource source.1 source.2 :=
    perm.mem_iff.trans (mem_sources_iff gone)
  refine ⟨sources.map Prod.fst, (perm.map Prod.fst).nodup_iff.2 apart.nodup, fun location => ?_, ?_⟩
  · simp [among]
  · rw [order, List.forall₂_map_left_iff, List.forall₂_map_right_iff, List.forall₂_same]
    intro source there
    have source_ := among.1 there
    refine ⟨rfl, pathSteps_pathBelow (tree.isEntryName source_.1), ?_⟩
    rw [toByteArray_sourceFile (valid _ _ source_)]
    exact source_

end Sources

/-- Whatever way the directory at a root is gone through: if all sources below it are texts, then
    all of them are loaded, each once and in order, and nothing else; if one of them is not, loading
    fails; and wherever the same sources lie below a directory, among whatever else, the outcome is
    the same. -/
theorem loadSourcesBy_directory {walk : Entry → List (Location × Entry)} {here : Entry}
    (tree : here.IsTree) {place : Location} {entries : List (String × Entry)}
    (there : here.at? place = some (.directory entries))
    (gone : (Entry.directory entries).GoneThrough (walk (.directory entries))) (root : String) :
    ((∀ location contents, (Entry.directory entries).HasSource location contents →
        contents.IsValidUTF8) →
      ∃ files, loadSourcesBy walk root (some (.directory entries)) = .ok files ∧
        Loads root (.directory entries) files) ∧
    ((∃ location contents, (Entry.directory entries).HasSource location contents ∧
        ¬contents.IsValidUTF8) →
      loadSourcesBy walk root (some (.directory entries)) = .error .notUtf8) ∧
    (∀ (walk' : Entry → List (Location × Entry)) (entries' : List (String × Entry)),
      (Entry.directory entries').GoneThrough (walk' (.directory entries')) →
      (∀ location contents, (Entry.directory entries').HasSource location contents ↔
        (Entry.directory entries).HasSource location contents) →
      loadSourcesBy walk' root (some (.directory entries')) =
        loadSourcesBy walk root (some (.directory entries))) := by
  have below := tree.at? there
  refine ⟨fun valid => ?_, ?_, fun walk' entries' gone' same => ?_⟩
  · refine ⟨_, readSources_of_valid fun source among => ?_, loads_sortedFiles gone below valid⟩
    exact valid _ _ ((mem_sources_iff gone).1 among)
  · rintro ⟨location, contents, source, invalid⟩
    exact readSources_of_invalid ⟨(location, contents), (mem_sources_iff gone).2 source, invalid⟩
  · refine (readSources_perm (apart_sources gone below) ?_).symm
    have apart := (nodup_sources gone).of_map
    have apart' := (nodup_sources gone').of_map
    refine (List.perm_ext_iff_of_nodup apart apart').2 ?_
    intro source
    rw [mem_sources_iff gone, mem_sources_iff gone', same]

namespace Sample

/-- Three sources, and what is none: a file with nothing in front of the extension, one with another
    extension, and a directory that is called like a source. -/
def sourceEntries : List (String × Entry) :=
  [(".tek", .file ⟨#[255]⟩), ("a", .directory [("b.tek", .file "var b = 2\n".toByteArray)]),
    ("a.tek", .file "var a = 1\n".toByteArray), ("notes.txt", .file ⟨#[255]⟩),
    ("x.tek", .directory [("c.b.tek", .file "".toByteArray)])]

/-- A tree with the sources in a directory of it. -/
def sourceTree : Entry := .directory [("src", .directory sourceEntries)]

end Sample

open Sample in
/-- The sources in the directory of the tree, which is gone through in the order of the names. -/
theorem loadSourcesBy_directory_sample :
    sourceTree.IsTree ∧ sourceTree.at? ["src"] = some (.directory sourceEntries) ∧
      (Entry.directory sourceEntries).GoneThrough (Entry.directory sourceEntries).walk ∧
      ∃ files, loadSources "src" (some (.directory sourceEntries)) = .ok files ∧
        Loads "src" (.directory sourceEntries) files := by
  have inner (name : String) (contents : ByteArray) (proper : IsEntryName name) :
      (Entry.directory [(name, .file contents)]).IsTree := by
    refine .directory (List.nodup_singleton _) ?_ ?_ <;> rw [List.forall_mem_singleton]
    · exact proper
    · exact .file contents
  have below : (Entry.directory sourceEntries).IsTree := by
    refine .directory (by decide) (by decide) ?_
    simp only [sourceEntries, List.forall_mem_cons]
    exact ⟨.file _, inner _ _ (by decide), .file _, .file _, inner _ _ (by decide),
      List.forall_mem_nil _⟩
  have tree : sourceTree.IsTree := by
    refine .directory (List.nodup_singleton _) ?_ ?_ <;> rw [List.forall_mem_singleton]
    · decide
    · exact below
  have found : (Entry.directory sourceEntries).walk.filterMap source? =
      [(["a", "b.tek"], "var b = 2\n".toByteArray), (["a.tek"], "var a = 1\n".toByteArray),
        (["x.tek", "c.b.tek"], "".toByteArray)] := by decide +kernel
  have gone := below.goneThrough
  have valid : ∀ location contents, (Entry.directory sourceEntries).HasSource location contents →
      contents.IsValidUTF8 := by
    intro location contents source
    have among := (@mem_sources_iff _ _ gone (location, contents)).2 source
    rw [found] at among
    simp only [List.mem_cons, Prod.mk.injEq, List.not_mem_nil, or_false] at among
    rcases among with ⟨-, rfl⟩ | ⟨-, rfl⟩ | ⟨-, rfl⟩ <;> exact String.isValidUTF8 _
  have there : sourceTree.at? ["src"] = some (.directory sourceEntries) := rfl
  exact ⟨tree, there, gone, (loadSourcesBy_directory tree there gone "src").1 valid⟩

end TekLang
