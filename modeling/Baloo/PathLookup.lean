import Baloo.UrlForest

/-!
# Looking up paths

`Transaction::documentId` goes down the URL tree along the components of a path, `DocumentUrlDB::get` climbs
from an entry and puts the names together. Both speak about the path an entry is at (`Located`): `get` finds
it unless it is too deep, and `documentId` finds an entry that is there. It finds this entry if no other
entry has the same directory and the same name.
-/

namespace Baloo

namespace DocumentUrlDB

/-- The loop of `Transaction::documentId`. -/
def documentIdLoop (db : DocumentUrlDB) : DocId → List QByteArray → DocId
  | parentId, [] => parentId
  | parentId, fileName :: li =>
    if fileName = [] then documentIdLoop db parentId li
    else
      let parentId := db.getId parentId fileName
      if parentId = 0 then 0 else documentIdLoop db parentId li

/-- `Transaction::documentId`. -/
def documentId (db : DocumentUrlDB) (path : QByteArray) : DocId := documentIdLoop db 0 (path.splitOn slash)

/-- Climbing from an entry reaches the root after `n` steps, and the names on the way make a path. -/
inductive Located (db : DocumentUrlDB) : ℕ → DocId → QByteArray → Prop
  | root : Located db 0 0 []
  | entry {n : ℕ} {id : DocId} {path : FilePath} {url : QByteArray} : id ≠ 0 →
    db.idFilenameDb.get id = some path → Located db n path.parentId url →
    Located db (n + 1) id (url ++ slash :: path.name)

/-- Names are components of paths. -/
def WellNamed (db : DocumentUrlDB) : Prop :=
  ∀ i path, db.idFilenameDb.get i = some path → path.name ≠ [] ∧ slash ∉ path.name

/-- No two entries share directory and name. -/
def Distinct (db : DocumentUrlDB) : Prop :=
  ∀ i j path, db.idFilenameDb.get i = some path → db.idFilenameDb.get j = some path → i = j

variable {db : DocumentUrlDB} {n m : ℕ} {id i r : DocId} {url url' name dir : QByteArray} {path : FilePath}

/-! ## Where an entry is -/

theorem Located.unique (h : db.Located n id url) (h' : db.Located m id url') : n = m ∧ url = url' := by
  induction h generalizing m url' with
  | root =>
    cases h' with
    | root => exact ⟨rfl, rfl⟩
    | entry hne _ _ => exact absurd rfl hne
  | @entry n id path url hne hget _ ih =>
    cases h' with
    | root => exact absurd rfl hne
    | @entry m _ path' url' _ hget' hparent =>
      obtain rfl := Option.some.inj (hget.symm.trans hget')
      obtain ⟨rfl, rfl⟩ := ih hparent
      exact ⟨rfl, rfl⟩

/-- Only the root has the empty path. -/
theorem Located.eq_zero (h : db.Located n id []) : id = 0 := by
  generalize hurl : ([] : QByteArray) = url at h
  cases h with
  | root => rfl
  | entry => simp at hurl

/-- The path of an entry is that of its directory, a slash and its name. -/
theorem Located.split (h : db.Located n id (dir ++ slash :: name)) (hslash : slash ∉ name) (hn : db.WellNamed) :
    ∃ m path, n = m + 1 ∧ id ≠ 0 ∧ db.idFilenameDb.get id = some path ∧ path.name = name ∧
      db.Located m path.parentId dir := by
  generalize hurl : dir ++ slash :: name = url at h
  cases h with
  | root => simp at hurl
  | @entry m _ path url hne hget hparent =>
    have hpos := congrArg (lastIndexOf slash) hurl
    rw [lastIndexOf_append hslash, lastIndexOf_append (hn _ _ hget).2] at hpos
    obtain ⟨rfl, hname⟩ := List.append_inj hurl (by exact_mod_cast hpos)
    obtain ⟨-, rfl⟩ := List.cons.inj hname
    exact ⟨m, path, rfl, hne, hget, rfl, hparent⟩

/-- Paths of entries are paths. -/
theorem Located.isPath (h : db.Located n id url) (hne : id ≠ 0) (hn : db.WellNamed) : IsPath url := by
  induction h with
  | root => exact absurd rfl hne
  | @entry n id path url _ hget hparent ih =>
    have hname := hn id path hget
    by_cases hzero : path.parentId = 0
    · rw [hzero] at hparent
      obtain rfl : url = [] := (hparent.unique .root).2
      exact ⟨[path.name], List.cons_ne_nil _ _, by simpa using hname, by simp⟩
    · obtain ⟨components, -, hnames, rfl⟩ := ih hzero
      refine ⟨components ++ [path.name], List.append_ne_nil_of_right_ne_nil _ (List.cons_ne_nil _ _), ?_, by simp⟩
      intro c hc
      rcases List.mem_append.mp hc with hc | hc
      · exact hnames c hc
      · rw [List.mem_singleton.mp hc]
        exact hname

/-- An entry is as deep as its path has slashes. -/
theorem Located.count (h : db.Located n id url) (hn : db.WellNamed) : url.count slash = n := by
  induction h with
  | root => rfl
  | @entry n id path url _ hget _ ih =>
    rw [List.count_append, List.count_cons_self, List.count_eq_zero.mpr (hn id path hget).2, ih]

/-- In a forest every entry is somewhere. -/
theorem IsForest.exists_located (h : db.IsForest) (hi : db.idFilenameDb.contains id = true) :
    ∃ n url, db.Located n id url := by
  have hlocated : ∀ {n x}, Forest.Depth db.parent 0 n x → ∃ url, db.Located n x url := by
    intro n x hdepth
    induction hdepth with
    | root => exact ⟨[], .root⟩
    | @step n x p hp _ ih =>
      obtain ⟨path, hpath, rfl⟩ := Option.map_eq_some_iff.mp hp
      obtain ⟨url, hurl⟩ := ih
      exact ⟨_, .entry (h.ne_zero hp) hpath hurl⟩
  obtain ⟨p, hp⟩ := exists_parent.mpr hi
  obtain ⟨n, hdepth⟩ := h.rooted id p hp
  exact ⟨n, hlocated hdepth⟩

theorem Located.getLoop (h : db.Located n id url) {limit : ℕ} (hn : n ≤ limit) (ret : QByteArray) :
    db.getLoop limit ret id = url ++ ret := by
  induction h generalizing limit ret with
  | root => exact getLoop_root db limit ret
  | @entry n id path url hne hget _ ih =>
    obtain ⟨limit, rfl⟩ : ∃ k, limit = k + 1 := ⟨limit - 1, by omega⟩
    rw [getLoop_of_some hne hget, ih (Nat.le_of_succ_le_succ hn), List.append_assoc, List.cons_append]

/-- `get` finds the path of an entry that is not too deep. -/
theorem Located.get (h : db.Located n id url) (hn : n ≤ 513) : db.get id = url := by
  cases h with
  | root => rw [DocumentUrlDB.get, if_pos rfl]
  | @entry n _ path url hne hget hparent =>
    rw [DocumentUrlDB.get, if_neg hne, hget]
    exact hparent.getLoop (Nat.le_of_succ_le_succ hn) _

theorem located_of_getLoop {limit : ℕ} {ret : QByteArray} (h : db.getLoop limit ret id ≠ []) :
    ∃ n url, n ≤ limit ∧ db.Located n id url ∧ db.getLoop limit ret id = url ++ ret := by
  induction limit generalizing ret id with
  | zero =>
    by_cases hid : id = 0
    · subst hid
      exact ⟨0, [], Nat.le_refl 0, .root, getLoop_root db 0 ret⟩
    · exact absurd (getLoop_limit db hid ret) h
  | succ limit ih =>
    by_cases hid : id = 0
    · subst hid
      exact ⟨0, [], Nat.zero_le _, .root, getLoop_root db _ ret⟩
    · rcases hget : db.idFilenameDb.get id with _ | path
      · exact absurd (getLoop_of_none hid hget _ ret) h
      · rw [getLoop_of_some hid hget] at h ⊢
        obtain ⟨n, url, hn, hlocated, heq⟩ := ih h
        refine ⟨n + 1, _, Nat.succ_le_succ hn, .entry hid hget hlocated, ?_⟩
        rw [heq, List.append_assoc, List.cons_append]

/-- What `get` finds is the path of the entry. -/
theorem located_of_get (h : db.get id ≠ []) : ∃ n, n ≤ 513 ∧ db.Located n id (db.get id) := by
  by_cases hid : id = 0
  · rw [get, if_pos hid] at h
    exact absurd rfl h
  · rcases hget : db.idFilenameDb.get id with _ | path
    · rw [get, if_neg hid, hget] at h
      exact absurd rfl h
    · rw [get, if_neg hid, hget] at h ⊢
      obtain ⟨n, url, hn, hlocated, heq⟩ := located_of_getLoop h
      refine ⟨n + 1, Nat.succ_le_succ hn, ?_⟩
      dsimp only
      rw [heq]
      exact .entry hid hget hlocated

/-! ## Entries of a directory -/

/-- `getId` gives an entry of the directory with the name. -/
theorem idFilenameDb_getId (hc : db.Consistent) (h : db.getId r name ≠ 0) :
    db.idFilenameDb.get (db.getId r name) = some { parentId := r, name := name } := by
  rw [getId] at h ⊢
  split at h
  · exact absurd rfl h
  · next hname =>
    rw [if_neg hname]
    rcases hfind : (db.idTreeDb.get r).find? _ with _ | i
    · rw [hfind] at h
      exact absurd rfl h
    · have hlisted := List.mem_of_find?_eq_some hfind
      have hmatch := List.find?_some hfind
      obtain ⟨path, hpath, hparent⟩ := Option.map_eq_some_iff.mp ((hc.listed i r).mp hlisted)
      rw [hpath, decide_eq_true_iff] at hmatch
      rw [Option.getD_some, hpath, ← hmatch, ← hparent]

/-- `getId` finds an entry if there is one. -/
theorem getId_ne_zero (hc : db.Consistent) (hname : name ≠ [])
    (h : db.idFilenameDb.get i = some { parentId := r, name := name }) : db.getId r name ≠ 0 := by
  have hlisted : i ∈ db.idTreeDb.get r := (hc.listed i r).mpr (by rw [parent, h]; rfl)
  rw [getId, if_neg hname]
  rcases hfind : (db.idTreeDb.get r).find? _ with _ | j
  · have hnot := List.find?_eq_none.mp hfind i hlisted
    rw [h] at hnot
    simp at hnot
  · rintro rfl
    have hzero := (hc.listed 0 r).mp (List.mem_of_find?_eq_some hfind)
    rw [hc.zero] at hzero
    cases hzero

/-! ## Going down -/

theorem documentIdLoop_append {a b : List QByteArray} {p : DocId} (h : db.documentIdLoop p a ≠ 0) :
    db.documentIdLoop p (a ++ b) = db.documentIdLoop (db.documentIdLoop p a) b := by
  induction a generalizing p with
  | nil => rfl
  | cons fileName a ih =>
    rw [List.cons_append]
    simp only [documentIdLoop] at h ⊢
    split
    · next hempty =>
      rw [if_pos hempty] at h
      exact ih h
    · next hname =>
      rw [if_neg hname] at h
      split
      · next hzero =>
        rw [if_pos hzero] at h
        exact absurd rfl h
      · next hne =>
        rw [if_neg hne] at h
        exact ih h

/-- A lookup that has failed stays so. -/
theorem documentIdLoop_append_zero {a b : List QByteArray} {p : DocId} (h : db.documentIdLoop p a = 0)
    (hne : p ≠ 0 ∨ ∃ c ∈ a, c ≠ []) : db.documentIdLoop p (a ++ b) = 0 := by
  induction a generalizing p with
  | nil =>
    rcases hne with hp | ⟨c, hc, -⟩
    · exact absurd h hp
    · exact absurd hc List.not_mem_nil
  | cons fileName a ih =>
    rw [List.cons_append]
    simp only [documentIdLoop] at h ⊢
    split
    · next hempty =>
      rw [if_pos hempty] at h
      refine ih h (hne.imp_right ?_)
      rintro ⟨c, hc, hc'⟩
      exact ⟨c, (List.mem_cons.mp hc).resolve_left (fun hc => hc' (hc.trans hempty)), hc'⟩
    · next hname =>
      rw [if_neg hname] at h
      split
      · rfl
      · next hne' =>
        rw [if_neg hne'] at h
        exact ih h (.inl hne')

/-- The lookup of an entry of a directory. -/
theorem documentId_append (hdir : dir = [] ∨ IsPath dir) (hname : name ≠ []) (hslash : slash ∉ name) :
    db.documentId (dir ++ slash :: name) =
      if dir ≠ [] ∧ db.documentId dir = 0 then 0 else db.getId (db.documentId dir) name := by
  have hlast : ∀ p, db.documentIdLoop p [name] = db.getId p name := by
    intro p
    simp only [documentIdLoop, if_neg hname]
    split
    · next hzero => exact hzero.symm
    · rfl
  rw [documentId, List.splitOn_append_cons_self, List.splitOn_eq_singleton hslash]
  rcases hdir with rfl | hdir
  · rw [if_neg (by simp)]
    exact hlast 0
  · obtain ⟨dir', last, rfl, hlastName, hlastSlash⟩ := hdir.split
    by_cases hzero : db.documentId (dir' ++ slash :: last) = 0
    · rw [if_pos ⟨by simp, hzero⟩]
      refine documentIdLoop_append_zero hzero (.inr ⟨last, ?_, hlastName⟩)
      rw [List.splitOn_append_cons_self, List.splitOn_eq_singleton hlastSlash]
      exact List.mem_append_right _ List.mem_cons_self
    · rw [if_neg fun h => hzero h.2, documentIdLoop_append hzero, hlast]
      rfl

/-- A slash at the end makes no difference. -/
theorem documentId_slash (db : DocumentUrlDB) (path : QByteArray) :
    db.documentId (path ++ [slash]) = db.documentId path := by
  rw [documentId, List.splitOn_append_cons_self, List.splitOn_nil]
  by_cases hzero : db.documentIdLoop 0 (path.splitOn slash) = 0
  · rw [documentId, hzero]
    by_cases hnames : ∃ c ∈ path.splitOn slash, c ≠ []
    · exact documentIdLoop_append_zero hzero (.inr hnames)
    · -- only empty components
      have hempty : ∀ (a : List QByteArray), (∀ c ∈ a, c = []) → db.documentIdLoop 0 a = 0 := by
        intro a ha
        induction a with
        | nil => rfl
        | cons c a ih =>
          rw [documentIdLoop, if_pos (ha c List.mem_cons_self)]
          exact ih fun c hc => ha c (List.mem_cons_of_mem _ hc)
      refine hempty _ fun c hc => ?_
      rcases List.mem_append.mp hc with hc | hc
      · exact not_not.mp fun hne => hnames ⟨c, hc, hne⟩
      · exact List.mem_singleton.mp hc
  · rw [documentIdLoop_append hzero]
    rfl

/-- What `documentId` finds is at the path. -/
theorem located_documentId (hc : db.Consistent) (hurl : IsPath url) (h : db.documentId url ≠ 0) :
    ∃ n, db.Located n (db.documentId url) url := by
  obtain ⟨components, hne, hnames, rfl⟩ := hurl
  induction components using List.reverseRecOn with
  | nil => exact absurd rfl hne
  | append_singleton components name ih =>
    obtain ⟨hname, hslash⟩ := hnames name (by simp)
    have hflatten : ((components ++ [name]).map (slash :: ·)).flatten =
        (components.map (slash :: ·)).flatten ++ slash :: name := by simp
    have hnames' : ∀ c ∈ components, c ≠ [] ∧ slash ∉ c := fun c hc => hnames c (List.mem_append_left _ hc)
    have hdir : (components.map (slash :: ·)).flatten = [] ∨ IsPath (components.map (slash :: ·)).flatten := by
      rcases eq_or_ne components [] with rfl | hcomponents
      · exact .inl rfl
      · exact .inr ⟨components, hcomponents, hnames', rfl⟩
    rw [hflatten] at h ⊢
    rw [documentId_append hdir hname hslash] at h ⊢
    split at h
    · exact absurd rfl h
    · next hfound =>
      rw [if_neg hfound]
      have hdirectory : ∃ n, db.Located n (db.documentId (components.map (slash :: ·)).flatten)
          (components.map (slash :: ·)).flatten := by
        rcases eq_or_ne components [] with rfl | hcomponents
        · exact ⟨0, .root⟩
        · refine ih hcomponents hnames' fun hzero => hfound ⟨?_, hzero⟩
          obtain ⟨c, components, rfl⟩ := List.exists_cons_of_ne_nil hcomponents
          simp
      obtain ⟨n, hn⟩ := hdirectory
      exact ⟨n + 1, .entry h (idFilenameDb_getId hc h) hn⟩

/-- `documentId` finds the entry at a path, if on the way down no entry has a double. -/
theorem Located.documentId (h : db.Located n id url) (hc : db.Consistent) (hn : db.WellNamed)
    (hunique : ∀ m a u path, db.Located m a u → (u = url ∨ IsAncestor u url) →
      db.idFilenameDb.get a = some path → ∀ j, db.idFilenameDb.get j = some path → j = a) :
    db.documentId url = id := by
  induction h with
  | root => rfl
  | @entry n id path url hne hget hparent ih =>
    obtain ⟨hname, hslash⟩ := hn id path hget
    have hdir : url = [] ∧ path.parentId = 0 ∨ path.parentId ≠ 0 ∧ IsPath url := by
      by_cases hzero : path.parentId = 0
      · rw [hzero] at hparent
        exact .inl ⟨(hparent.unique .root).2, hzero⟩
      · exact .inr ⟨hzero, hparent.isPath hzero hn⟩
    have hfound : db.documentId url = path.parentId := by
      rcases hdir with ⟨rfl, hzero⟩ | ⟨hzero, hpath⟩
      · exact hzero.symm
      · have hne : url ≠ [] := by
          rintro rfl
          exact hzero hparent.eq_zero
        refine ih fun m a u path' hu hrest => hunique m a u path' hu (.inr ?_)
        have habove : IsAncestor url (url ++ slash :: path.name) := ⟨hne, path.name, rfl⟩
        rcases hrest with rfl | hrest
        · exact habove
        · exact hrest.trans habove
    have hget' : db.getId path.parentId path.name ≠ 0 := getId_ne_zero hc hname hget
    have hself := hunique (n + 1) id _ path (.entry hne hget hparent) (.inl rfl) hget _
      (idFilenameDb_getId hc hget')
    rw [documentId_append (hdir.imp And.left And.right) hname hslash, hfound, if_neg ?_, hself]
    rintro ⟨hne', hzero⟩
    rcases hdir with ⟨rfl, -⟩ | ⟨hzero', -⟩
    · exact hne' rfl
    · exact hzero' hzero

end DocumentUrlDB

end Baloo
