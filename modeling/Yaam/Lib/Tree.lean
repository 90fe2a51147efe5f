/-
  Directory trees: files at paths, with the operations of a file system that a
  store rests on.

  A tree is a finite map from relative paths to files.  A directory is the paths
  that pass through it.

  * `walkFiles` lists the files of one extension in path order (`mem_walkFiles`);
  * `readToString` reads a file as UTF-8;
  * `replaceAtomically` rewrites one file and leaves every other name but its
    temporary's (`lookup_replaceAtomically_of_ne`);
  * `rename` moves a file between trees, `removeDirAll` removes a directory, `renameDir`
    renames one (`lookup_renameDir`).
-/
import Yaam.Lib.Utf8
import Mathlib.Data.List.AList
import Mathlib.Data.List.Sort
import Mathlib.Data.List.Dedup

namespace Yaam

open Text

/-- A path, as its components. -/
abbrev Path := List Text

/-- A file: its bytes and its modification time in milliseconds. -/
structure File where
  content : Bytes
  mtime : ℤ
deriving DecidableEq

/-- A directory tree. -/
abbrev Tree := AList fun _ : Path => File

/-- Failures of the file system. -/
inductive IoError where
  | notFound (p : Path)
  | invalidData (detail : String)
  | other (detail : String)
deriving DecidableEq

def IoError.display : IoError → String
  | .notFound _ => "No such file or directory (os error 2)"
  | .invalidData detail => detail
  | .other detail => detail

/-! ## Names -/

/-- A file name as its stem and its extension: the last dot separates them, unless
    it starts the name. -/
def splitName (name : Text) : Text × Option Text :=
  match splitOnce '.' name.reverse with
  | none => (name, none)
  | some (ext, stem) => if stem = [] then (name, none) else (stem.reverse, some ext.reverse)

/-- `Path::file_stem`. -/
def fileStem (p : Path) : Option Text := p.getLast?.map fun name => (splitName name).1

/-- `Path::extension`. -/
def extension (p : Path) : Option Text := p.getLast?.bind fun name => (splitName name).2

/-- `Path::with_extension`. -/
def withExtension (p : Path) (ext : Text) : Path :=
  match p.getLast? with
  | none => p
  | some name => p.dropLast ++ [(splitName name).1 ++ '.' :: ext]

theorem splitName_append {stem ext : Text} (hs : stem ≠ []) (he : '.' ∉ ext) :
    splitName (stem ++ '.' :: ext) = (stem, some ext) := by
  have hsplit : splitOnce '.' (stem ++ '.' :: ext).reverse = some (ext.reverse, stem.reverse) := by
    rw [List.reverse_append, List.reverse_cons, List.append_assoc]
    exact splitOnce_append_cons (by simpa using he) _
  rw [splitName, hsplit]
  simp [hs]

theorem fileStem_concat (dir : Path) {stem ext : Text} (hs : stem ≠ []) (he : '.' ∉ ext) :
    fileStem (dir ++ [stem ++ '.' :: ext]) = some stem := by
  simp [fileStem, splitName_append hs he]

theorem extension_concat (dir : Path) {stem ext : Text} (hs : stem ≠ []) (he : '.' ∉ ext) :
    extension (dir ++ [stem ++ '.' :: ext]) = some ext := by
  simp [extension, splitName_append hs he]

/-- The stem of a name that has an extension is not empty. -/
theorem splitName_of_ext {name ext : Text} (h : (splitName name).2 = some ext) :
    (splitName name).1 ≠ [] ∧ '.' ∉ ext := by
  unfold splitName at h ⊢
  cases hs : splitOnce '.' name.reverse with
  | none => simp [hs] at h
  | some r =>
    obtain ⟨e, stem⟩ := r
    simp only [hs] at h ⊢
    split_ifs at h with hst
    simp only [Option.some.injEq] at h
    subst h
    have hnot : ∀ {t a b : Text}, splitOnce '.' t = some (a, b) → '.' ∉ a := by
      intro t
      induction t with
      | nil => intro a b h; cases h
      | cons c t ih =>
        intro a b h
        rw [splitOnce_cons] at h
        split_ifs at h with hc
        · obtain ⟨rfl, -⟩ := Prod.mk.inj (Option.some.inj h)
          simp
        · obtain ⟨⟨a', b'⟩, hab, he⟩ := Option.map_eq_some_iff.1 h
          obtain ⟨rfl, -⟩ := Prod.mk.inj he
          simp only [List.mem_cons, not_or]
          exact ⟨Ne.symm hc, ih hab⟩
    simp only [hst, if_false]
    exact ⟨by simpa using hst, by simpa using hnot hs⟩

/-- A temporary's name has the temporary's extension. -/
theorem extension_withExtension {p : Path} {ext e : Text} (he : '.' ∉ e)
    (h : extension p = some ext) : extension (withExtension p e) = some e := by
  cases hl : p.getLast? with
  | none => simp [extension, hl] at h
  | some name =>
    have hne : (splitName name).1 ≠ [] := (splitName_of_ext (by simpa [extension, hl] using h)).1
    simp only [withExtension, hl]
    exact extension_concat _ hne he

namespace Tree

/-! ## Reading -/

/-- `fs::read`. -/
def read (t : Tree) (p : Path) : Except IoError Bytes :=
  match t.lookup p with
  | none => .error (.notFound p)
  | some f => .ok f.content

/-- `fs::read_to_string`. -/
def readToString (t : Tree) (p : Path) : Except IoError Text :=
  match t.lookup p with
  | none => .error (.notFound p)
  | some f => match Utf8.decode f.content with
    | none => .error (.invalidData "stream did not contain valid UTF-8")
    | some text => .ok text

/-- Every file with an extension, in path order. -/
def walkFiles (t : Tree) (ext : Text) : List Path :=
  (t.keys.filter fun p => extension p = some ext).insertionSort (· ≤ ·)

theorem mem_walkFiles {t : Tree} {ext : Text} {p : Path} :
    p ∈ t.walkFiles ext ↔ p ∈ t ∧ extension p = some ext := by
  rw [walkFiles, List.mem_insertionSort, List.mem_filter]
  simp [AList.mem_keys]

theorem nodup_walkFiles (t : Tree) (ext : Text) : (t.walkFiles ext).Nodup :=
  (List.perm_insertionSort _ _).nodup_iff.2 (t.keys_nodup.filter _)

/-- The chosen files of two trees are listed alike when the trees have the same ones. -/
theorem filter_walkFiles_congr {t u : Tree} {ext : Text} {q : Path → Bool}
    (h : ∀ p, q p = true → (p ∈ t ↔ p ∈ u)) :
    (t.walkFiles ext).filter q = (u.walkFiles ext).filter q := by
  have hsorted : ∀ v : Tree, ((v.walkFiles ext).filter q).Pairwise (· ≤ ·) := fun v =>
    (List.pairwise_insertionSort _ _).sublist List.filter_sublist
  refine List.Perm.eq_of_pairwise' (hsorted t) (hsorted u) ?_
  rw [List.perm_ext_iff_of_nodup ((nodup_walkFiles t ext).filter _) ((nodup_walkFiles u ext).filter _)]
  intro p
  simp only [List.mem_filter, mem_walkFiles]
  constructor
  · rintro ⟨⟨hp, he⟩, hq⟩
    exact ⟨⟨(h p hq).1 hp, he⟩, hq⟩
  · rintro ⟨⟨hp, he⟩, hq⟩
    exact ⟨⟨(h p hq).2 hp, he⟩, hq⟩

theorem readToString_ok {t : Tree} {p : Path} {text : Text} :
    t.readToString p = .ok text ↔ ∃ f, t.lookup p = some f ∧ f.content = Utf8.encode text := by
  unfold readToString
  cases t.lookup p with
  | none => simp
  | some f =>
    simp only [Option.some.injEq, exists_eq_left']
    cases hd : Utf8.decode f.content with
    | none =>
      simp only [reduceCtorEq, false_iff]
      intro h
      rw [h, Utf8.decode_encode] at hd
      cases hd
    | some u =>
      rw [Utf8.decode_eq_some_iff] at hd
      simp only [Except.ok.injEq, hd]
      exact ⟨fun h => by rw [h], fun h => Utf8.encode_inj h⟩

theorem readToString_congr {t u : Tree} {p : Path} (h : t.lookup p = u.lookup p) :
    t.readToString p = u.readToString p := by
  unfold readToString
  rw [h]

/-! ## Writing -/

/-- Writes a file, replacing what stands there. -/
def write (t : Tree) (p : Path) (bytes : Bytes) (now : ℤ) : Tree := t.insert p ⟨bytes, now⟩

/-- Replaces a file's content through a temporary sibling and a rename. -/
def replaceAtomically (t : Tree) (p : Path) (bytes : Bytes) (now : ℤ) : Tree :=
  let temp := withExtension p "tmp".toList
  ((t.write temp bytes now).erase temp).insert p ⟨bytes, now⟩

/-- Appends a line to a file, which is made when there is none. -/
def appendLine (t : Tree) (p : Path) (line : Text) (now : ℤ) : Tree :=
  t.write p (((t.lookup p).elim [] (·.content)) ++ Utf8.encode (line ++ ['\n'])) now

/-- Renames a file of one tree to a name in another. -/
def rename (src dst : Tree) (p q : Path) : Except IoError (Tree × Tree) :=
  match src.lookup p with
  | none => .error (.notFound p)
  | some f => .ok (src.erase p, dst.insert q f)

theorem lookup_replaceAtomically (t : Tree) (p : Path) (bytes : Bytes) (now : ℤ) :
    (t.replaceAtomically p bytes now).lookup p = some ⟨bytes, now⟩ := by
  simp [replaceAtomically]

theorem lookup_replaceAtomically_of_ne (t : Tree) {p q : Path} (bytes : Bytes) (now : ℤ)
    (hp : q ≠ p) (ht : q ≠ withExtension p "tmp".toList) :
    (t.replaceAtomically p bytes now).lookup q = t.lookup q := by
  simp only [replaceAtomically, write]
  rw [AList.lookup_insert_ne hp, AList.lookup_erase_ne ht, AList.lookup_insert_ne ht]

theorem mem_iff_lookup {t : Tree} {p : Path} : p ∈ t ↔ ∃ f, t.lookup p = some f := by
  rw [← AList.lookup_isSome, Option.isSome_iff_exists]

/-! ## Directories -/

/-- Whether a path lies under a directory. -/
def Under (dir p : Path) : Prop := dir <+: p ∧ p ≠ dir

instance (dir p : Path) : Decidable (Under dir p) := inferInstanceAs (Decidable (_ ∧ _))

/-- `fs::remove_dir_all`. -/
def removeDirAll (t : Tree) (dir : Path) : Tree :=
  ⟨t.entries.filter fun e => ¬ Under dir e.1, t.nodupKeys.sublist List.filter_sublist⟩

/-- Removes one file. -/
def unlink (t : Tree) (p : Path) : Tree :=
  ⟨t.entries.filter fun e => ¬ e.1 = p, t.nodupKeys.sublist List.filter_sublist⟩

/-- The names in a directory, sorted. -/
def entryNames (t : Tree) (dir : Path) : List Text :=
  ((t.keys.filter (Under dir)).filterMap fun p => p[dir.length]?).dedup.insertionSort (· ≤ ·)

theorem lookup_removeDirAll (t : Tree) (dir p : Path) :
    (t.removeDirAll dir).lookup p = if Under dir p then none else t.lookup p := by
  ext f
  rw [← Option.mem_def, AList.mem_lookup_iff]
  simp only [removeDirAll, List.mem_filter, decide_eq_true_eq]
  rw [← AList.mem_lookup_iff, Option.mem_def]
  split_ifs with h <;> simp [h]

theorem mem_removeDirAll {t : Tree} {dir p : Path} :
    p ∈ t.removeDirAll dir ↔ p ∈ t ∧ ¬ Under dir p := by
  rw [mem_iff_lookup, mem_iff_lookup, lookup_removeDirAll]
  split_ifs with h <;> simp [h]

theorem lookup_unlink (t : Tree) (p q : Path) :
    (t.unlink p).lookup q = if q = p then none else t.lookup q := by
  ext f
  rw [← Option.mem_def, AList.mem_lookup_iff]
  simp only [unlink, List.mem_filter, decide_eq_true_eq]
  rw [← AList.mem_lookup_iff, Option.mem_def]
  split_ifs with h <;> simp [h]

theorem mem_unlink {t : Tree} {p q : Path} : q ∈ t.unlink p ↔ q ∈ t ∧ q ≠ p := by
  show q ∈ (t.unlink p).entries.keys ↔ q ∈ t.entries.keys ∧ q ≠ p
  simp only [List.mem_keys, unlink, List.mem_filter, decide_eq_true_eq]
  constructor
  · rintro ⟨f, hf, hne⟩
    exact ⟨⟨f, hf⟩, hne⟩
  · rintro ⟨⟨f, hf⟩, hne⟩
    exact ⟨f, hf, hne⟩

/-- Removing files one after another removes them all. -/
theorem foldl_unlink (ps : List Path) (t : Tree) :
    (ps.foldl unlink t).entries = t.entries.filter fun e => e.1 ∉ ps := by
  induction ps generalizing t with
  | nil => simp
  | cons p ps ih =>
    rw [List.foldl_cons, ih, unlink, List.filter_filter]
    refine List.filter_congr fun e _ => ?_
    simp only [List.mem_cons, not_or, ← Bool.decide_and, decide_eq_decide]
    exact and_comm

/-- **Removing a directory is removing its files**, one after another. -/
theorem foldl_unlink_under (t : Tree) (dir : Path) :
    (t.keys.filter (Under dir)).foldl unlink t = t.removeDirAll dir := by
  refine AList.ext ?_
  rw [foldl_unlink]
  refine List.filter_congr fun e he => ?_
  have hkey : e.1 ∈ t.keys := List.mem_map_of_mem he
  simp [hkey]

theorem mem_entryNames {t : Tree} {dir : Path} {name : Text} :
    name ∈ t.entryNames dir ↔ ∃ p ∈ t, Under dir p ∧ p[dir.length]? = some name := by
  rw [entryNames, List.mem_insertionSort, List.mem_dedup, List.mem_filterMap]
  simp [List.mem_filter, AList.mem_keys, and_assoc]

theorem under_concat (dir : Path) (name : Text) : Under dir (dir ++ [name]) :=
  ⟨List.prefix_append _ _, by simp⟩

/-! ## Renaming directories -/

section
variable {α : Type} {k : α → Path} {v : α → File} {xs : List α} {x : α} {t : Tree} {p q src dst : Path}

theorem lookup_foldl_insert_of_notMem (h : ∀ x ∈ xs, k x ≠ q) :
    (xs.foldl (fun u x => u.insert (k x) (v x)) t).lookup q = t.lookup q := by
  induction xs generalizing t with
  | nil => rfl
  | cons x xs ih =>
    have hne : q ≠ k x := (h x List.mem_cons_self).symm
    rw [List.foldl_cons, ih fun y hy => h y (List.mem_cons_of_mem _ hy), AList.lookup_insert_ne hne]

/-- Inserting files at different paths keeps each. -/
theorem lookup_foldl_insert_of_mem (hnd : (xs.map k).Nodup) (hx : x ∈ xs) :
    (xs.foldl (fun u x => u.insert (k x) (v x)) t).lookup (k x) = some (v x) := by
  induction xs generalizing t with
  | nil => exact absurd hx List.not_mem_nil
  | cons y xs ih =>
    obtain ⟨hy, hnd⟩ := List.nodup_cons.1 hnd
    rw [List.foldl_cons]
    rcases List.mem_cons.1 hx with rfl | hx
    · rw [lookup_foldl_insert_of_notMem fun z hz he => hy (List.mem_map.2 ⟨z, hz, he⟩),
        AList.lookup_insert]
    · exact ih hnd hx

/-- `fs::rename` of a directory to a name where none stands. -/
def renameDir (t : Tree) (src dst : Path) : Tree :=
  (t.entries.filter fun e => Under src e.1).foldl
    (fun u e => u.insert (dst ++ e.1.drop src.length) e.2) (t.removeDirAll src)

theorem under_append {dir p : Path} : Under dir (dir ++ p) ↔ p ≠ [] := by
  rw [Under, and_iff_right (List.prefix_append _ _)]
  simp

/-- A directory's files stand under its new name. -/
theorem lookup_renameDir {f : File} (h : t.lookup (src ++ p) = some f) (hp : p ≠ []) :
    (t.renameDir src dst).lookup (dst ++ p) = some f := by
  have hmem : (⟨src ++ p, f⟩ : Sigma fun _ : Path => File) ∈ t.entries.filter fun e => Under src e.1 := by
    refine List.mem_filter.2 ⟨AList.mem_lookup_iff.1 h, ?_⟩
    simpa using under_append.2 hp
  have hnd : ((t.entries.filter fun e => Under src e.1).map fun e => dst ++ e.1.drop src.length).Nodup := by
    refine List.Nodup.map_on (fun a ha b hb he => ?_) ((List.NodupKeys.nodup t.nodupKeys).filter _)
    have ha' := List.mem_filter.1 ha
    have hb' := List.mem_filter.1 hb
    obtain ⟨⟨pa, hpa⟩, -⟩ : Under src a.1 := by simpa using ha'.2
    obtain ⟨⟨pb, hpb⟩, -⟩ : Under src b.1 := by simpa using hb'.2
    have hdrop := List.append_cancel_left he
    rw [← hpa, ← hpb, List.drop_left, List.drop_left] at hdrop
    have hkey : a.1 = b.1 := by rw [← hpa, ← hpb, hdrop]
    exact t.nodupKeys.eq_of_fst_eq ha'.1 hb'.1 hkey
  have := lookup_foldl_insert_of_mem (v := fun e => e.2) (t := t.removeDirAll src) hnd hmem
  rw [List.drop_left] at this
  exact this

/-- What a directory did not hold is as it was under its new name. -/
theorem lookup_renameDir_of_none (h : t.lookup (src ++ p) = none) (hsrc : ¬ Under src (dst ++ p)) :
    (t.renameDir src dst).lookup (dst ++ p) = t.lookup (dst ++ p) := by
  rw [renameDir, lookup_foldl_insert_of_notMem, lookup_removeDirAll, if_neg hsrc]
  rintro e he heq
  obtain ⟨he, hu⟩ := List.mem_filter.1 he
  obtain ⟨⟨pe, hpe⟩, -⟩ : Under src e.1 := by simpa using hu
  have hdrop := List.append_cancel_left heq
  rw [← hpe, List.drop_left] at hdrop
  have hl := AList.mem_lookup_iff.2 he
  rw [← hpe, hdrop, Option.mem_def, h] at hl
  cases hl

/-- A path outside both names is left. -/
theorem lookup_renameDir_of_not_under (hsrc : ¬ Under src q) (hdst : ¬ Under dst q) :
    (t.renameDir src dst).lookup q = t.lookup q := by
  rw [renameDir, lookup_foldl_insert_of_notMem, lookup_removeDirAll, if_neg hsrc]
  rintro e he rfl
  obtain ⟨-, hu⟩ := List.mem_filter.1 he
  obtain ⟨⟨pe, hpe⟩, hne⟩ : Under src e.1 := by simpa using hu
  refine hdst (under_append.2 ?_)
  rw [← hpe, List.drop_left]
  rintro rfl
  exact hne (by rw [← hpe, List.append_nil])
end

end Tree

end Yaam
