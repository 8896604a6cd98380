import Mathlib.Data.List.Perm.Basic
import StoryPlayer.Command.Folder
import StoryPlayer.Proofs.EntryNames

/-! Folders of files as libraries.  A walk through a folder goes through the entries of each folder
by name and enters the folders in place.  What a folder becomes is told by the documents that it
holds, and by the first of them in the walk that is no UTF-8: each document is found under its names
with slashes between them, and under nothing else. -/

namespace StoryPlayer

open Markup

namespace Node

/-- Whether a text can be the name of an entry of a folder. -/
def IsEntryName (name : String) : Prop :=
  name ≠ "" ∧ name ≠ "." ∧ name ≠ ".." ∧ '/' ∉ name.toList

/-- A tree of files as they are stored: the entries of each folder have different names. -/
inductive Proper : Node → Prop
  | file (content : ByteArray) : Proper (file content)
  | folder {entries : List (String × Node)} :
      (∀ entry ∈ entries, IsEntryName entry.1) → (entries.map Prod.fst).Nodup →
      (∀ entry ∈ entries, Proper entry.2) → Proper (folder entries)

/-- The names lead from a node to a file with this content. -/
inductive Holds : Node → List String → ByteArray → Prop
  | here (content : ByteArray) : Holds (file content) [] content
  | through {entries : List (String × Node)} {name : String} {node : Node} {names : List String}
      {content : ByteArray} :
      (name, node) ∈ entries → Holds node names content →
        Holds (folder entries) (name :: names) content

/-- Names that lead to a story document: the last one is `.xml` after something else. -/
def IsDocument (names : List String) : Prop :=
  ∃ folders stem, stem ≠ "" ∧ names = folders ++ [stem ++ ".xml"]

/-- The names lead from a node to a story document with this content. -/
def HoldsDocument (node : Node) (names : List String) (content : ByteArray) : Prop :=
  node.Holds names content ∧ IsDocument names

/-- The entries of a folder, by name. -/
def byName (entries : List (String × Node)) : List (String × Node) :=
  entries.mergeSort fun a b => decide (a.1 ≤ b.1)

mutual

/-- A node with the entries of each folder by name. -/
def sorted : Node → Node
  | file content => file content
  | folder entries => folder (byName (sortedAll entries))

/-- The entries of a folder, in their order, with those of each folder below by name. -/
def sortedAll : List (String × Node) → List (String × Node)
  | [] => []
  | (name, node) :: rest => (name, sorted node) :: sortedAll rest

end

/-- The files in a node, each with the names that lead to it: the entries of each folder are gone
through by name, and a folder is entered where it comes. -/
def walk (node : Node) : List (List String × ByteArray) := node.sorted.files

/-- Whether some names come before others in a walk. -/
def earlier (a b : List String) : Bool := a.lex b fun s t => decide (s < t)

/-! ### Files -/

theorem filesOf_eq (entries : List (String × Node)) :
    filesOf entries =
      entries.flatMap fun entry => entry.2.files.map fun file => (entry.1 :: file.1, file.2) := by
  induction entries with
  | nil => rfl
  | cons entry rest ih => rw [filesOf, ih, List.flatMap_cons]

theorem sortedAll_eq (entries : List (String × Node)) :
    sortedAll entries = entries.map fun entry => (entry.1, entry.2.sorted) := by
  induction entries with
  | nil => rfl
  | cons entry rest ih => rw [sortedAll, ih, List.map_cons]

theorem files_folder (entries : List (String × Node)) :
    (folder entries).files =
      entries.flatMap fun entry => entry.2.files.map fun file => (entry.1 :: file.1, file.2) := by
  rw [files, filesOf_eq]

theorem byName_perm (entries : List (String × Node)) : (byName entries).Perm entries :=
  List.mergeSort_perm _ _

theorem walk_folder (entries : List (String × Node)) :
    (folder entries).walk = (byName entries).flatMap fun entry =>
      entry.2.walk.map fun file => (entry.1 :: file.1, file.2) := by
  have hsorted : (byName entries).map (fun entry => (entry.1, entry.2.sorted)) =
      byName (sortedAll entries) := by
    rw [sortedAll_eq]
    exact List.map_mergeSort fun _ _ _ _ => rfl
  rw [walk, sorted, ← hsorted, files_folder, List.flatMap_map]
  rfl

theorem walk_perm {node : Node} (h : node.Proper) : node.walk.Perm node.files := by
  induction h with
  | file content => exact .refl _
  | folder _ _ _ ih =>
    rw [walk_folder, files_folder]
    refine .flatMap (byName_perm _) fun entry hentry => .map _ (ih entry ?_)
    exact (byName_perm _).subset hentry

theorem mem_files_iff {node : Node} (h : node.Proper) {names : List String} {content : ByteArray} :
    (names, content) ∈ node.files ↔ node.Holds names content := by
  induction h generalizing names with
  | file other =>
    constructor
    · intro hmem
      cases List.mem_singleton.mp hmem
      exact .here content
    · rintro ⟨⟩
      exact List.mem_singleton.mpr rfl
  | folder _ _ _ ih =>
    rw [files_folder, List.mem_flatMap]
    constructor
    · rintro ⟨entry, hentry, hmem⟩
      obtain ⟨file, hfile, heq⟩ := List.mem_map.mp hmem
      cases heq
      exact .through hentry ((ih entry hentry).mp hfile)
    · rintro (_ | ⟨hentry, hbelow⟩)
      exact ⟨_, hentry, List.mem_map_of_mem ((ih _ hentry).mpr hbelow)⟩

theorem mem_walk_iff {node : Node} (h : node.Proper) {names : List String} {content : ByteArray} :
    (names, content) ∈ node.walk ↔ node.Holds names content := by
  rw [(walk_perm h).mem_iff, mem_files_iff h]

theorem Holds.entryNames {node : Node} {names : List String} {content : ByteArray}
    (h : node.Holds names content) (hproper : node.Proper) :
    ∀ name ∈ names, IsEntryName name := by
  induction h with
  | here => simp
  | through hentry _ ih =>
    cases hproper with
    | folder hnames _ hbelow =>
      simpa using ⟨hnames _ hentry, ih (hbelow _ hentry)⟩

theorem Holds.ne_nil {entries : List (String × Node)} {names : List String} {content : ByteArray}
    (h : (folder entries).Holds names content) : names ≠ [] := by
  cases h
  simp

/-! ### The order of a walk -/

theorem earlier_cons (s t : String) (a b : List String) :
    earlier (s :: a) (t :: b) = true ↔ s < t ∨ s = t ∧ earlier a b = true := by
  simp [earlier, List.cons_lex_cons]

theorem earlier_iff (a b : List String) :
    earlier a b = true ↔ List.Lex (fun s t : String => decide (s < t) = true) a b :=
  List.lex_eq_true_iff_lex _

theorem earlier_trans {a b c : List String} (hab : earlier a b = true) (hbc : earlier b c = true) :
    earlier a c = true := by
  rw [earlier_iff] at *
  refine List.lex_trans ?_ hab hbc
  simp only [decide_eq_true_iff]
  exact String.lt_trans

theorem not_earlier_self (a : List String) : ¬earlier a a = true := by
  rw [earlier_iff]
  refine List.lex_irrefl ?_ a
  simp

theorem earlier_asymm {a b : List String} (h : earlier a b = true) : ¬earlier b a = true :=
  fun hba => not_earlier_self a (earlier_trans h hba)

theorem earlier_total (a b : List String) : earlier a b = true ∨ a = b ∨ earlier b a = true := by
  simp only [earlier_iff]
  refine Classical.byContradiction fun h => ?_
  rw [not_or, not_or] at h
  refine h.2.1 (List.lex_trichotomous ?_ h.2.2 h.1)
  simp only [decide_eq_true_iff, String.not_lt]
  intro s t hts hst
  exact String.le_antisymm hst hts

theorem not_earlier_trans {a b c : List String} (hba : ¬earlier b a = true)
    (hcb : ¬earlier c b = true) : ¬earlier c a = true := by
  intro hca
  obtain hab | rfl | h := earlier_total a b
  · exact hcb (earlier_trans hca hab)
  · exact hcb hca
  · exact hba h

theorem byName_pairwise {entries : List (String × Node)} (h : (entries.map Prod.fst).Nodup) :
    (byName entries).Pairwise fun a b => a.1 < b.1 := by
  have hsorted : (byName entries).Pairwise fun a b => decide (a.1 ≤ b.1) = true := by
    refine List.pairwise_mergeSort ?_ ?_ entries
    · simp only [decide_eq_true_iff]
      intro a b c
      exact String.le_trans
    · simp only [Bool.or_eq_true, decide_eq_true_iff]
      intro a b
      exact String.le_total a.1 b.1
  have hnames : (byName entries).Pairwise fun a b => a.1 ≠ b.1 := by
    rw [← List.pairwise_map]
    exact ((byName_perm entries).map Prod.fst).nodup_iff.mpr h
  refine hsorted.imp₂ ?_ hnames
  simp only [decide_eq_true_iff]
  intro a b hle hne
  rw [← String.not_le]
  exact fun hge => hne (String.le_antisymm hle hge)

/-- A walk goes through the files in the order of their names, the first ones first. -/
theorem walk_pairwise {node : Node} (h : node.Proper) :
    node.walk.Pairwise fun a b => earlier a.1 b.1 = true := by
  induction h with
  | file content => exact List.pairwise_singleton _ _
  | folder _ hnodup _ ih =>
    rw [walk_folder, List.pairwise_flatMap]
    constructor
    · intro entry hentry
      rw [List.pairwise_map]
      refine (ih entry ((byName_perm _).subset hentry)).imp fun hearlier => ?_
      exact (earlier_cons ..).mpr (.inr ⟨rfl, hearlier⟩)
    · refine (byName_pairwise hnodup).imp fun hlt => ?_
      simp only [List.forall_mem_map]
      intro file _ other _
      exact (earlier_cons ..).mpr (.inl hlt)

theorem nodup_walk {node : Node} (h : node.Proper) : (node.walk.map Prod.fst).Nodup := by
  rw [List.Nodup, List.pairwise_map]
  refine (walk_pairwise h).imp fun {a b} hearlier heq => ?_
  rw [heq] at hearlier
  exact not_earlier_self b.1 hearlier

/-! ### Story documents -/

theorem isDocumentName_iff (name : String) :
    isDocumentName name = true ↔ ∃ stem, stem ≠ "" ∧ name = stem ++ ".xml" := by
  simp only [isDocumentName, Bool.and_eq_true, List.isSuffixOf_iff_suffix, decide_eq_true_iff]
  constructor
  · rintro ⟨⟨stem, hstem⟩, hlength⟩
    have hname : name = String.ofList stem ++ ".xml" := by
      rw [← String.toList_inj, String.toList_append, String.toList_ofList, hstem]
    refine ⟨String.ofList stem, ?_, hname⟩
    intro hempty
    rw [hname, hempty] at hlength
    exact absurd hlength (by decide)
  · rintro ⟨stem, hstem, rfl⟩
    rw [String.toList_append, String.length_append]
    refine ⟨List.suffix_append _ _, Nat.lt_add_of_pos_left ?_⟩
    rw [Nat.pos_iff_ne_zero, ne_eq, String.length_eq_zero_iff]
    exact hstem

theorem isDocument_iff (names : List String) :
    names.getLast?.any isDocumentName = true ↔ IsDocument names := by
  rw [Option.any_eq_true]
  simp only [isDocumentName_iff, List.getLast?_eq_some_iff, IsDocument]
  constructor
  · rintro ⟨name, ⟨folders, rfl⟩, stem, hstem, rfl⟩
    exact ⟨folders, stem, hstem, rfl⟩
  · rintro ⟨folders, stem, hstem, rfl⟩
    exact ⟨stem ++ ".xml", ⟨folders, rfl⟩, stem, hstem, rfl⟩

instance (names : List String) : Decidable (IsDocument names) :=
  decidable_of_iff _ (isDocument_iff names)

/-- Sorting the documents by their names puts them in the order of a walk, as no two files have the
same names. -/
theorem documents_eq {node : Node} (h : node.Proper) :
    node.documents = node.walk.filter fun file => file.1.getLast?.any isDocumentName := by
  have hperm : node.documents.Perm (node.walk.filter fun file =>
      file.1.getLast?.any isDocumentName) :=
    (List.mergeSort_perm _ _).trans ((walk_perm h).symm.filter _)
  have hsorted : node.documents.Pairwise fun a b => (!earlier b.1 a.1) = true := by
    refine List.pairwise_mergeSort ?_ ?_ _
    · simp only [Bool.not_eq_true', ← Bool.not_eq_true]
      exact fun a b c => not_earlier_trans
    · simp only [Bool.or_eq_true, Bool.not_eq_true', ← Bool.not_eq_true]
      exact fun a b => not_or_of_imp fun hba => earlier_asymm hba
  have hwalk : (node.walk.filter fun file => file.1.getLast?.any isDocumentName).Pairwise
      fun a b => (!earlier b.1 a.1) = true := by
    refine ((walk_pairwise h).filter _).imp fun {a b} hab => ?_
    rw [Bool.not_eq_true', ← Bool.not_eq_true]
    exact earlier_asymm hab
  refine List.Perm.eq_of_pairwise (fun a b ha hb hab hba => ?_) hsorted hwalk hperm
  have hnames : a.1 = b.1 := by
    rw [Bool.not_eq_true'] at hab hba
    simpa [hab, hba] using earlier_total a.1 b.1
  have hmem := List.mem_of_mem_filter (hperm.subset ha)
  exact List.inj_on_of_nodup_map (nodup_walk h) hmem (List.mem_of_mem_filter hb) hnames

theorem mem_documents_iff {node : Node} (h : node.Proper) {names : List String}
    {content : ByteArray} :
    (names, content) ∈ node.documents ↔ node.HoldsDocument names content := by
  rw [documents_eq h, List.mem_filter, mem_walk_iff h, isDocument_iff, HoldsDocument]

/-! ### Paths -/

theorem splitOn_path {names : List String} (h : ∀ name ∈ names, IsEntryName name)
    (hne : names ≠ []) :
    (String.intercalate "/" names).toList.splitOn '/' = names.map String.toList := by
  rw [String.toList_intercalate]
  refine List.splitOn_intercalate '/' ?_ (by simpa using hne)
  rw [List.forall_mem_map]
  exact fun name hname => (h name hname).2.2.2

theorem path_injective {a b : List String} (ha : ∀ name ∈ a, IsEntryName name) (hne : a ≠ [])
    (hb : ∀ name ∈ b, IsEntryName name) (hne' : b ≠ [])
    (h : String.intercalate "/" a = String.intercalate "/" b) : a = b := by
  have hsplit := splitOn_path ha hne
  rw [h, splitOn_path hb hne'] at hsplit
  exact List.map_injective_iff.mpr (fun _ _ => String.toList_injective) hsplit.symm

/-- A path that starts with `./` has the name `.` in it. -/
theorem not_isDotted_path {names : List String} (h : ∀ name ∈ names, IsEntryName name)
    (hne : names ≠ []) : ¬Library.IsDotted (String.intercalate "/" names) := by
  rintro ⟨rest, hrest⟩
  have hsplit := splitOn_path h hne
  rw [← hrest, show "./".toList ++ rest = ['.'] ++ '/' :: rest from rfl,
    List.splitOn_append_cons_self_of_not_mem (by decide)] at hsplit
  obtain ⟨name, hname, hdot⟩ := List.mem_map.mp (hsplit ▸ List.mem_cons_self)
  exact (h name hname).2.1 (String.toList_injective hdot)

theorem HoldsDocument.eq_of_path {entries : List (String × Node)} (h : (folder entries).Proper)
    {names names' : List String} {content content' : ByteArray}
    (hdocument : (folder entries).HoldsDocument names content)
    (hother : (folder entries).HoldsDocument names' content')
    (hpath : String.intercalate "/" names = String.intercalate "/" names') :
    names = names' ∧ content = content' := by
  have hnames : names = names' :=
    path_injective (hdocument.1.entryNames h) hdocument.1.ne_nil (hother.1.entryNames h)
      hother.1.ne_nil hpath
  have hfile := List.inj_on_of_nodup_map (nodup_walk h) ((mem_walk_iff h).mpr hdocument.1)
    ((mem_walk_iff h).mpr hother.1) hnames
  exact ⟨hnames, congrArg Prod.snd hfile⟩

theorem nodup_paths {entries : List (String × Node)} (h : (folder entries).Proper) :
    ((folder entries).documents.map fun file => String.intercalate "/" file.1).Nodup := by
  have hnames : ((folder entries).documents.map Prod.fst).Nodup := by
    rw [documents_eq h]
    exact (nodup_walk h).sublist (List.filter_sublist.map _)
  refine hnames.of_map.map_on fun file hfile other hother hpath => ?_
  have heq := HoldsDocument.eq_of_path h ((mem_documents_iff h).mp hfile)
    ((mem_documents_iff h).mp hother) hpath
  exact Prod.ext heq.1 heq.2

end Node

namespace Library

/-! ### Reading -/

theorem toUTF8_of_fromUTF8? {content : ByteArray} {source : String}
    (h : String.fromUTF8? content = some source) : source.toUTF8 = content := by
  unfold String.fromUTF8? at h
  split at h
  · cases h
    rfl
  · cases h

theorem not_isValidUTF8_of_fromUTF8? {content : ByteArray} (h : String.fromUTF8? content = none) :
    ¬content.IsValidUTF8 := by
  unfold String.fromUTF8? at h
  split at h
  · cases h
  · assumption

/-- Reading gives a library with the paths and contents of the documents, or fails at the first that
is no UTF-8. -/
theorem ofDocuments_cases (root : String) (documents : List (List String × ByteArray)) :
    (∃ library, ofDocuments root documents = .ok library ∧
      library.map (fun entry => (entry.1, entry.2.toUTF8)) =
        documents.map fun file => (String.intercalate "/" file.1, file.2)) ∨
    ∃ first, documents.find? (fun file => decide ¬file.2.IsValidUTF8) = some first ∧
      ofDocuments root documents = .error (.unreadable (first.1.foldl Path.join root)) := by
  induction documents with
  | nil => exact .inl ⟨[], rfl, rfl⟩
  | cons file rest ih =>
    cases hread : String.fromUTF8? file.2 with
    | none =>
      have hinvalid := not_isValidUTF8_of_fromUTF8? hread
      refine .inr ⟨file, List.find?_cons_of_pos (decide_eq_true hinvalid), ?_⟩
      simp only [ofDocuments, hread]
    | some source =>
      have hsource := toUTF8_of_fromUTF8? hread
      have hvalid : file.2.IsValidUTF8 := hsource ▸ source.isValidUTF8
      obtain ⟨library, hok, heq⟩ | ⟨first, hfirst, herror⟩ := ih
      · refine .inl ⟨(String.intercalate "/" file.1, source) :: library, ?_, ?_⟩
        · simp only [ofDocuments, hread, hok]
          rfl
        · rw [List.map_cons, List.map_cons, heq, hsource]
      · refine .inr ⟨first, ?_, ?_⟩
        · rw [List.find?_cons_of_neg (by simpa using hvalid), hfirst]
        · simp only [ofDocuments, hread, herror]
          rfl

/-! ### Libraries -/

/-- The library has the documents of the node, and each can be fetched at its path. -/
structure Stores (library : Library) (node : Node) : Prop where
  nodup : library.keys.Nodup
  mem_keys_iff : ∀ path, path ∈ library.keys ↔
    ∃ names content, node.HoldsDocument names content ∧ path = String.intercalate "/" names
  /-- Different documents have different paths. -/
  distinct : ∀ names content names' content', node.HoldsDocument names content →
    node.HoldsDocument names' content' →
    String.intercalate "/" names = String.intercalate "/" names' →
      names = names' ∧ content = content'
  bound : ∀ names content, node.HoldsDocument names content →
    ∃ source, source.toUTF8 = content ∧
      library.get? (String.intercalate "/" names) = some source ∧
      ∀ n, library.fetch (dotted n (String.intercalate "/" names)) =
        (parse source).mapError .malformed

theorem stores_of_eq {library : Library} {entries : List (String × Node)}
    (h : (Node.folder entries).Proper)
    (heq : library.map (fun entry => (entry.1, entry.2.toUTF8)) =
      (Node.folder entries).documents.map fun file => (String.intercalate "/" file.1, file.2)) :
    library.Stores (.folder entries) := by
  have hkeys : library.keys =
      (Node.folder entries).documents.map fun file => String.intercalate "/" file.1 := by
    simpa [Table.keys, Function.comp_def] using congrArg (List.map Prod.fst) heq
  have hnodup : library.keys.Nodup := hkeys ▸ Node.nodup_paths h
  refine ⟨hnodup, fun path => ?_, fun _ _ _ _ => Node.HoldsDocument.eq_of_path h, ?_⟩
  · simp only [hkeys, List.mem_map, Prod.exists, Node.mem_documents_iff h, eq_comm]
  · intro names content hdocument
    have hmem : (String.intercalate "/" names, content) ∈
        library.map fun entry => (entry.1, entry.2.toUTF8) := by
      rw [heq, List.mem_map]
      exact ⟨_, (Node.mem_documents_iff h).mpr hdocument, rfl⟩
    obtain ⟨⟨path, source⟩, hentry, hpair⟩ := List.mem_map.mp hmem
    obtain ⟨rfl, rfl⟩ := Prod.mk.inj hpair
    have hget := Table.get?_of_mem hnodup hentry
    refine ⟨source, rfl, hget, fun n => fetch_eq ?_⟩
    have hplain := Node.not_isDotted_path (hdocument.1.entryNames h) hdocument.1.ne_nil
    rw [bare_dotted, bare_eq_self_iff.mpr hplain]
    exact hget

/-- What a folder becomes: a library with its documents, of which there are some, or a failure. -/
theorem ofFolder_cases (root : String) {entries : List (String × Node)}
    (h : (Node.folder entries).Proper) :
    (∃ library, ofFolder root (some (.folder entries)) = .ok library ∧
      library.Stores (.folder entries) ∧
      (∃ names content, (Node.folder entries).HoldsDocument names content) ∧
      ∀ names content, (Node.folder entries).HoldsDocument names content →
        content.IsValidUTF8) ∨
    (ofFolder root (some (.folder entries)) = .error (.noDocuments root) ∧
      ∀ names content, ¬(Node.folder entries).HoldsDocument names content) ∨
    ∃ first, (Node.folder entries).walk.find?
        (fun file => decide (Node.IsDocument file.1 ∧ ¬file.2.IsValidUTF8)) = some first ∧
      ofFolder root (some (.folder entries)) =
        .error (.unreadable (first.1.foldl Path.join root)) := by
  obtain ⟨library, hok, heq⟩ | ⟨first, hfirst, herror⟩ :=
    ofDocuments_cases root (Node.folder entries).documents
  · have hstores := stores_of_eq h heq
    cases library with
    | nil =>
      refine .inr (.inl ⟨?_, fun names content hdocument => ?_⟩)
      · simp only [ofFolder, hok]
        rfl
      · obtain ⟨source, -, hget, -⟩ := hstores.bound names content hdocument
        cases hget
    | cons entry rest =>
      refine .inl ⟨entry :: rest, ?_, hstores, ?_, fun names content hdocument => ?_⟩
      · simp only [ofFolder, hok]
        rfl
      · obtain ⟨names, content, hdocument, -⟩ :=
          (hstores.mem_keys_iff entry.1).mp List.mem_cons_self
        exact ⟨names, content, hdocument⟩
      · obtain ⟨source, rfl, -, -⟩ := hstores.bound names content hdocument
        exact source.isValidUTF8
  · refine .inr (.inr ⟨first, ?_, ?_⟩)
    · rw [Node.documents_eq h, List.find?_filter] at hfirst
      simpa only [Bool.decide_and, Bool.decide_eq_true, Node.isDocument_iff] using hfirst
    · simp only [ofFolder, herror]
      rfl

/-- For every folder: it becomes a library exactly if it holds documents and all are UTF-8.  The
library then has each document at its path, where it is fetched after any number of `./`.  Else the
failure names the first document of the walk that is no UTF-8, or says that there is none. -/
theorem folder_becomes_library (root : String) (entries : List (String × Node))
    (h : (Node.folder entries).Proper) :
    ((∃ library, ofFolder root (some (.folder entries)) = .ok library) ↔
      (∃ names content, (Node.folder entries).HoldsDocument names content) ∧
      ∀ names content, (Node.folder entries).HoldsDocument names content →
        content.IsValidUTF8) ∧
    (∀ library, ofFolder root (some (.folder entries)) = .ok library →
      library.Stores (.folder entries)) ∧
    ((∃ names content, (Node.folder entries).HoldsDocument names content ∧
        ¬content.IsValidUTF8) →
      ∃ first failure, (Node.folder entries).walk.find?
          (fun file => decide (Node.IsDocument file.1 ∧ ¬file.2.IsValidUTF8)) = some first ∧
        ofFolder root (some (.folder entries)) = .error failure ∧
        failure.code = "CLI_SOURCE_READ" ∧
        failure.message = first.1.foldl Path.join root ++ ": stream did not contain valid UTF-8") ∧
    ((∀ names content, ¬(Node.folder entries).HoldsDocument names content) →
      ∃ failure, ofFolder root (some (.folder entries)) = .error failure ∧
        failure.code = "CLI_SOURCE_EMPTY") := by
  obtain ⟨library, hfolder, hstores, hsome, hvalid⟩ | ⟨hfolder, hnone⟩ | ⟨first, hfirst, hfolder⟩ :=
    ofFolder_cases root h
  · refine ⟨iff_of_true ⟨library, hfolder⟩ ⟨hsome, hvalid⟩, fun other hother => ?_, ?_, ?_⟩
    · rw [hfolder] at hother
      cases hother
      exact hstores
    · rintro ⟨names, content, hdocument, hinvalid⟩
      exact absurd (hvalid names content hdocument) hinvalid
    · intro hnone
      obtain ⟨names, content, hdocument⟩ := hsome
      exact absurd hdocument (hnone names content)
  · rw [hfolder]
    refine ⟨iff_of_false nofun ?_, nofun, ?_, fun _ => ⟨_, rfl, rfl⟩⟩
    · rintro ⟨⟨names, content, hdocument⟩, -⟩
      exact hnone names content hdocument
    · rintro ⟨names, content, hdocument, -⟩
      exact absurd hdocument (hnone names content)
  · obtain ⟨hnames, hinvalid⟩ : Node.IsDocument first.1 ∧ ¬first.2.IsValidUTF8 := by
      simpa using List.find?_some hfirst
    have hdocument : (Node.folder entries).HoldsDocument first.1 first.2 :=
      ⟨(Node.mem_walk_iff h).mp (List.mem_of_find?_eq_some hfirst), hnames⟩
    rw [hfolder]
    refine ⟨iff_of_false nofun ?_, nofun, fun _ => ⟨first, _, hfirst, rfl, rfl, rfl⟩, ?_⟩
    · rintro ⟨-, hvalid⟩
      exact hinvalid (hvalid _ _ hdocument)
    · intro hnone
      exact absurd hdocument (hnone _ _)

/-- The entries of a folder that has a document, one that comes before it in a folder of its own,
and a file that is no UTF-8 and no document. -/
def nested (content : ByteArray) : List (String × Node) :=
  [("b.xml", .file content), (".xml", .file (.mk #[255])),
    ("b", .folder [("c.d.xml", .file content)])]

theorem proper_nested (content : ByteArray) : (Node.folder (nested content)).Proper := by
  have hinner : (Node.folder [("c.d.xml", .file content)]).Proper := by
    refine .folder ?_ (by simp) ?_
    · simp [Node.IsEntryName]
    · simpa using Node.Proper.file content
  refine .folder ?_ (by simp [nested]) ?_
  · simp [nested, Node.IsEntryName]
  · simpa [nested] using ⟨.file content, .file _, hinner⟩

theorem walk_nested (content : ByteArray) : (Node.folder (nested content)).walk =
    [([".xml"], .mk #[255]), (["b", "c.d.xml"], content), (["b.xml"], content)] := by
  simp [Node.walk, Node.sorted, Node.sortedAll, Node.byName, nested, List.mergeSort, Node.files,
    Node.filesOf, List.MergeSort.Internal.splitInTwo, List.splitAt, List.splitAt.go]

theorem holdsDocument_nested_iff {content other : ByteArray} {names : List String} :
    (Node.folder (nested content)).HoldsDocument names other ↔
      (names = ["b", "c.d.xml"] ∨ names = ["b.xml"]) ∧ other = content := by
  rw [Node.HoldsDocument, ← Node.mem_walk_iff (proper_nested content), walk_nested,
    ← Node.isDocument_iff]
  simp only [List.mem_cons, Prod.mk.injEq, List.not_mem_nil, or_false]
  constructor
  · rintro ⟨⟨rfl, rfl⟩ | ⟨rfl, rfl⟩ | ⟨rfl, rfl⟩, hdocument⟩
    · exact absurd hdocument (by decide)
    · exact ⟨.inl rfl, rfl⟩
    · exact ⟨.inr rfl, rfl⟩
  · rintro ⟨rfl | rfl, rfl⟩
    · exact ⟨.inr (.inl ⟨rfl, rfl⟩), by decide⟩
    · exact ⟨.inr (.inr ⟨rfl, rfl⟩), by decide⟩

/-- Both ways: the document below is fetched after two `./`, and where both documents are no UTF-8
it is the one below that is named. -/
theorem folder_becomes_library_nested :
    (Node.folder (nested "<block id='start'/>".toUTF8)).Proper ∧
    (∃ library,
      ofFolder "/s" (some (.folder (nested "<block id='start'/>".toUTF8))) = .ok library ∧
      library.fetch "././b/c.d.xml" = (parse "<block id='start'/>").mapError .malformed) ∧
    (Node.folder (nested (.mk #[255]))).Proper ∧
    ∃ failure, ofFolder "/s" (some (.folder (nested (.mk #[255])))) = .error failure ∧
      failure.message = "/s/b/c.d.xml: stream did not contain valid UTF-8" := by
  refine ⟨proper_nested _, ?_, proper_nested _, ?_⟩
  · obtain ⟨hiff, hstores, -⟩ := folder_becomes_library "/s" _
      (proper_nested "<block id='start'/>".toUTF8)
    obtain ⟨library, hfolder⟩ := hiff.mpr
      ⟨⟨_, _, holdsDocument_nested_iff.mpr ⟨.inl rfl, rfl⟩⟩, fun names content hdocument => by
        rw [(holdsDocument_nested_iff.mp hdocument).2]
        exact String.isValidUTF8 _⟩
    obtain ⟨source, hsource, -, hfetch⟩ := (hstores library hfolder).bound _ _
      (holdsDocument_nested_iff.mpr ⟨.inl rfl, rfl⟩)
    rw [String.toByteArray_inj.mp hsource] at hfetch
    exact ⟨library, hfolder, hfetch 2⟩
  · obtain ⟨-, -, hfails, -⟩ := folder_becomes_library "/s" _ (proper_nested (.mk #[255]))
    obtain ⟨first, failure, hfirst, hfolder, -, hmessage⟩ :=
      hfails ⟨_, _, holdsDocument_nested_iff.mpr ⟨.inl rfl, rfl⟩, by decide⟩
    have hbelow : (Node.folder (nested (.mk #[255]))).walk.find?
        (fun file => decide (Node.IsDocument file.1 ∧ ¬file.2.IsValidUTF8)) =
          some (["b", "c.d.xml"], .mk #[255]) := by
      rw [walk_nested]
      decide
    rw [hbelow] at hfirst
    cases hfirst
    exact ⟨failure, hfolder, hmessage⟩

end Library

end StoryPlayer
