import Mathlib.Data.List.AList
import Mathlib.Data.List.Sort
import NuclaDB.LittleEndian

/-!
# File trees

Directories and files below one root, with operations of package `os`. A path is the list of
the names on the way down.
-/

namespace NuclaDB.FileTree

open LittleEndian List Except

inductive Error
  | notExist
  | notDir
  | isDir
  | exist
  | invalid
deriving DecidableEq

inductive Tree
  | file (data : Bytes)
  | dir (entries : List (Sigma fun _ : String => Tree))

abbrev Entries := List (Sigma fun _ : String => Tree)

namespace Tree

def isDir : Tree → Bool
  | file _ => false
  | dir _ => true

def get : List String → Tree → Except Error Tree
  | [], t => .ok t
  | _ :: _, file _ => .error .notDir
  | n :: p, dir es =>
    match es.dlookup n with
    | none => .error .notExist
    | some t => t.get p

def edit (f : Tree → Except Error Tree) : List String → Tree → Except Error Tree
  | [], t => f t
  | _ :: _, file _ => .error .notDir
  | n :: p, dir es =>
    match es.dlookup n with
    | none => .error .notExist
    | some t => (edit f p t).map fun u => dir (es.kinsert n u)

def cut : List String → Tree → Tree
  | _, file data => file data
  | [], dir es => dir es
  | [n], dir es => dir (es.kerase n)
  | n :: p, dir es =>
    match es.dlookup n with
    | none => dir es
    | some t => dir (es.kinsert n (t.cut p))

def mkdirAll : List String → Tree → Except Error Tree
  | _, file _ => .error .notDir
  | [], dir es => .ok (dir es)
  | n :: p, dir es => (mkdirAll p ((es.dlookup n).getD (dir []))).map fun u => dir (es.kinsert n u)

variable (name : String)

def putHere (t : Tree) : Tree → Except Error Tree
  | file _ => .error .notDir
  | dir es => .ok (dir (es.kinsert name t))

def writeHere (data : Bytes) : Tree → Except Error Tree
  | file _ => .error .notDir
  | dir es => if ((es.dlookup name).any isDir) then .error .isDir else .ok (dir (es.kinsert name (file data)))

def replaceHere (data : Bytes) : Tree → Except Error Tree
  | file _ => .error .notDir
  | dir es =>
    if (es.dlookup (name ++ ".tmp")).any isDir then .error .isDir
    else if (es.dlookup name).any isDir then .error .exist
    else .ok (dir ((es.kerase (name ++ ".tmp")).kinsert name (file data)))

def removeHere : Tree → Except Error Tree
  | file _ => .error .notDir
  | dir es =>
    match es.dlookup name with
    | none => .error .notExist
    | some (dir (_ :: _)) => .error .exist
    | some _ => .ok (dir (es.kerase name))

def rename (t : Tree) (src dst : List String) (name : String) : Except Error Tree := do
  let x ← t.get src
  if src.isPrefixOf (dst ++ [name]) then .error .invalid
  else
    match t.get (dst ++ [name]), x with
    | .ok (dir _), _ => .error .exist
    | .ok (file _), dir _ => .error .notDir
    | .ok (file _), file _ => (t.cut src).edit (putHere name x) dst
    | .error .notExist, _ => (t.cut src).edit (putHere name x) dst
    | .error e, _ => .error e

def readFile (p : List String) (t : Tree) : Except Error Bytes := do
  match ← t.get p with
  | file data => .ok data
  | dir _ => .error .isDir

def readDir (p : List String) (t : Tree) : Except Error Entries := do
  match ← t.get p with
  | file _ => .error .notDir
  | dir es => .ok (es.mergeSort fun a b => decide (a.1 ≤ b.1))

end Tree

section Frames
variable {n m name : String} {es es' : Entries} {t u : Tree} {f : Tree → Except Error Tree} {data : Bytes}

structure Only (n : String) (es es' : Entries) : Prop where
  nodup : es.NodupKeys → es'.NodupKeys
  same : ∀ m, m ≠ n → es'.dlookup m = es.dlookup m

theorem Only.trans {es'' : Entries} (h : Only n es es') (h' : Only n es' es'') : Only n es es'' :=
  ⟨fun hn => h'.nodup (h.nodup hn), fun m hm => (h'.same m hm).trans (h.same m hm)⟩

theorem only_kinsert : Only n es (es.kinsert n t) :=
  ⟨fun h => kinsert_nodupKeys n t h, fun _ hm => dlookup_kinsert_ne hm⟩

/-- Directories that are not empty are as before, and there are no new names but some. -/
structure KeepsDirs (names : List String) (es es' : Entries) : Prop where
  nodup : es.NodupKeys → es'.NodupKeys
  same : ∀ {m x}, es.dlookup m = some (.dir x) → x ≠ [] → es'.dlookup m = some (.dir x)
  keys : ∀ m ∈ es'.keys, m ∈ names ∨ m ∈ es.keys

theorem KeepsDirs.trans {names names' : List String} {es'' : Entries} (h : KeepsDirs names es es')
    (h' : KeepsDirs names' es' es'') : KeepsDirs (names' ++ names) es es'' :=
  ⟨fun hn => h'.nodup (h.nodup hn), fun hm hx => h'.same (h.same hm hx) hx, fun m hm => by
    rw [mem_append, or_assoc]
    exact (h'.keys m hm).imp_right (h.keys m)⟩

namespace Tree

theorem get_cons (p : List String) : (dir es).get (n :: p) = match es.dlookup n with
    | none => .error .notExist
    | some t => t.get p := rfl

theorem get_of_dlookup (h : es.dlookup n = some t) (p : List String) : (dir es).get (n :: p) = t.get p := by
  rw [get_cons, h]

theorem edit_entry (h : (dir es).edit f [n] = .ok t) : ∃ x y es', es.dlookup n = some x ∧ f x = .ok y ∧
    t = dir es' ∧ es'.dlookup n = some y ∧ Only n es es' := by
  simp only [edit] at h
  split at h
  · cases h
  · next x hx =>
    cases hf : f x with
    | error e =>
      rw [hf] at h
      cases h
    | ok y =>
      rw [hf] at h
      obtain rfl := ok.inj h
      exact ⟨x, y, _, hx, hf, rfl, dlookup_kinsert _, only_kinsert⟩

theorem mkdirAll_entry (h : (dir es).mkdirAll [n] = .ok t) : ∃ fs es', t = dir es' ∧
    es'.dlookup n = some (dir fs) ∧ Only n es es' := by
  simp only [mkdirAll] at h
  cases hd : (es.dlookup n).getD (dir []) with
  | file data =>
    rw [hd] at h
    cases h
  | dir fs =>
    rw [hd] at h
    obtain rfl := ok.inj h
    exact ⟨fs, _, rfl, dlookup_kinsert _, only_kinsert⟩

theorem not_dir (h : ¬ (es.dlookup n).any isDir = true) {x : Entries} : es.dlookup n ≠ some (dir x) := by
  intro hn
  rw [hn] at h
  exact h rfl

theorem replaceHere_ok (h : replaceHere name data t = .ok u) : ∃ es es', t = dir es ∧ u = dir es' ∧
    es'.dlookup name = some (file data) ∧
    (∀ m, m ≠ name → m ≠ name ++ ".tmp" → es'.dlookup m = es.dlookup m) ∧ KeepsDirs [name] es es' := by
  cases t with
  | file data => cases h
  | dir es =>
    simp only [replaceHere] at h
    split at h
    · cases h
    · next htmp =>
      split at h
      · cases h
      · next hname =>
        obtain rfl := ok.inj h
        have hsame : ∀ m, m ≠ name → m ≠ name ++ ".tmp" →
            ((es.kerase (name ++ ".tmp")).kinsert name (file data)).dlookup m = es.dlookup m := fun m hm hm' => by
          rw [dlookup_kinsert_ne hm, dlookup_kerase_ne hm']
        refine ⟨es, _, rfl, rfl, dlookup_kinsert _, hsame, fun hn => ?_, fun {m x} hm _ => ?_, ?_⟩
        · exact kinsert_nodupKeys _ _ (hn.kerase _)
        · rw [hsame m (fun heq => not_dir hname (heq ▸ hm)) fun heq => not_dir htmp (heq ▸ hm)]
          exact hm
        · intro m hm
          rw [mem_keys_kinsert] at hm
          exact hm.imp mem_singleton.mpr mem_keys_of_mem_keys_kerase

theorem writeHere_ok (h : writeHere name data t = .ok u) : ∃ es es', t = dir es ∧ u = dir es' ∧
    (∀ m, m ≠ name → es'.dlookup m = es.dlookup m) ∧ KeepsDirs [name] es es' := by
  cases t with
  | file data => cases h
  | dir es =>
    simp only [writeHere] at h
    split at h
    · cases h
    · next hname =>
      obtain rfl := ok.inj h
      refine ⟨es, _, rfl, rfl, only_kinsert.same, only_kinsert.nodup, fun {m x} hm _ => ?_, ?_⟩
      · exact (only_kinsert.same m fun heq => not_dir hname (heq ▸ hm)).trans hm
      · exact fun m hm => (mem_keys_kinsert.mp hm).imp_left mem_singleton.mpr

theorem removeHere_ok (h : removeHere name t = .ok u) : ∃ es es', t = dir es ∧ u = dir es' ∧
    (∀ m, m ≠ name → es'.dlookup m = es.dlookup m) ∧ KeepsDirs [name] es es' := by
  cases t with
  | file data => cases h
  | dir es =>
    have hkeeps (hname : ∀ e x, es.dlookup name ≠ some (dir (e :: x))) :
        KeepsDirs [name] es (es.kerase name) := by
      refine ⟨fun hn => hn.kerase _, fun {m x} hm hx => ?_, fun m hm => ?_⟩
      · rw [dlookup_kerase_ne, hm]
        rintro rfl
        obtain ⟨e, x, rfl⟩ := exists_cons_of_ne_nil hx
        exact hname e x hm
      · exact .inr (mem_keys_of_mem_keys_kerase hm)
    simp only [removeHere] at h
    split at h
    · cases h
    · cases h
    · next x hother hname =>
      obtain rfl := ok.inj h
      refine ⟨es, _, rfl, rfl, fun m hm => dlookup_kerase_ne hm, hkeeps fun e fs hdir => ?_⟩
      rw [hname, Option.some.injEq] at hdir
      exact hother e fs hdir

theorem rename_entry {fs : Entries} (hn : es.dlookup n = some (dir fs))
    (h : (dir es).rename [n] [] m = .ok t) :
    n ≠ m ∧ es.dlookup m = none ∧ t = dir ((es.kerase n).kinsert m (dir fs)) := by
  have hsrc : (dir es).get [n] = .ok (dir fs) := get_of_dlookup hn []
  rw [rename, hsrc] at h
  dsimp only [bind, Except.bind, nil_append] at h
  split at h
  · cases h
  · next hprefix =>
    have hne : n ≠ m := by
      rintro rfl
      simp at hprefix
    refine ⟨hne, ?_⟩
    cases hm : es.dlookup m with
    | none =>
      have hdst : (dir es).get [m] = .error .notExist := by rw [get_cons, hm]
      rw [hdst] at h
      exact ⟨rfl, (ok.inj h).symm⟩
    | some x =>
      have hdst : (dir es).get [m] = .ok x := get_of_dlookup hm []
      rw [hdst] at h
      cases x <;> cases h

end Tree

end Frames

section Entry
variable {ε : Type} {n : String} {op op₂ : Tree → Except ε Tree} {es es' : Entries}

/-- The operation works on one entry of a directory and leaves the others. -/
def AtEntry (n : String) (op : Tree → Except ε Tree) : Prop :=
  ∃ g : Option Tree → Except ε Tree, ∀ es : Entries,
    op (.dir es) = (g (es.dlookup n)).map fun u => .dir (es.kinsert n u)

theorem kinsert_kinsert (es : Entries) (n : String) (u v : Tree) :
    (es.kinsert n u).kinsert n v = es.kinsert n v := by
  simp [List.kinsert, kerase_cons_eq]

theorem AtEntry.bind (h : AtEntry n op) (h₂ : AtEntry n op₂) : AtEntry n fun t => op t >>= op₂ := by
  obtain ⟨g, hg⟩ := h
  obtain ⟨g₂, hg₂⟩ := h₂
  refine ⟨fun x => g x >>= fun u => g₂ (some u), fun es => ?_⟩
  simp only [hg]
  cases g (es.dlookup n) with
  | error e => rfl
  | ok u =>
    change op₂ (.dir (es.kinsert n u)) = _
    rw [hg₂, dlookup_kinsert]
    simp only [kinsert_kinsert]
    rfl

theorem AtEntry.sees (h : AtEntry n op) (hn : es.dlookup n = es'.dlookup n) :
    (∃ e, op (.dir es) = .error e ∧ op (.dir es') = .error e) ∨
      ∃ u, op (.dir es) = .ok (.dir (es.kinsert n u)) ∧ op (.dir es') = .ok (.dir (es'.kinsert n u)) := by
  obtain ⟨g, hg⟩ := h
  rw [hg, hg, ← hn]
  cases g (es.dlookup n) with
  | error e => exact .inl ⟨e, rfl, rfl⟩
  | ok u => exact .inr ⟨u, rfl, rfl⟩

theorem AtEntry.cases (h : AtEntry n op) (es : Entries) :
    (∃ e, op (.dir es) = .error e) ∨ ∃ u, op (.dir es) = .ok (.dir (es.kinsert n u)) := by
  rcases h.sees (rfl : es.dlookup n = es.dlookup n) with ⟨e, he, -⟩ | ⟨u, hu, -⟩
  · exact .inl ⟨e, he⟩
  · exact .inr ⟨u, hu⟩

end Entry

end NuclaDB.FileTree
