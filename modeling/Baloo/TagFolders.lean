import Baloo.Codec
import Baloo.Lib.Replace
import Mathlib.Data.Char

/-!
# Renaming and deleting a tag folder

The tags of a file are shown as folders, and a slash in a tag leads into a subfolder. Renaming a folder changes the
tags of the files in it, and deleting it removes them. Where a tag is changed, the name of the folder is replaced
wherever it occurs, in whatever case, and the list of tags is rewritten once for each tag: names that come out of
it may be those of other tags. A folder is deleted with subfolders that only differ from it in case.

A file whose tags are all right afterwards is one where none of this happens (`tag_folder_changed`).
-/

namespace Baloo

/-- A tag, by its characters. -/
abbrev Tag : Type := List Char

local instance : LawfulBEq Tag := List.instLawfulBEq

/-- The tags of the files, as `KFileMetaData::UserMetaData` reads and writes them. -/
abbrev TaggedFiles : Type := QByteArray → List Tag

namespace TagsProtocol

/-- `TagsProtocol::UrlType`. -/
inductive UrlType where
  /-- neither a tag nor a file -/
  | invalidUrl
  /-- a file -/
  | fileUrl
  /-- a tag -/
  | tagUrl
  deriving DecidableEq

/-- `TagsProtocol::ParseResult`. -/
structure ParseResult where
  /-- what the address is -/
  urlType : UrlType := .invalidUrl
  /-- the address, for messages -/
  decodedUrl : List Char := []
  /-- the tag -/
  tag : Tag := []
  /-- the path of the file, empty if there is none -/
  fileUrl : QByteArray := []
  /-- the files that the query finds, each of them once -/
  query : List QByteArray := []
  /-- the address of a tag names no file -/
  isTagUrl : urlType = .tagUrl → fileUrl = [] := by decide
  /-- a file has a path, and is found once -/
  isFile : query.Nodup ∧ [] ∉ query := by decide

/-- `UserMetaData::tags`: without a file there are none. -/
def tags (files : TaggedFiles) (path : QByteArray) : List Tag := if path = [] then [] else files path

/-- A tag of the folder: `tag == srcResult.tag || tag.startsWith(srcResult.tag + QLatin1Char('/'))`. -/
def inFolder (folder tag : Tag) : Bool := tag = folder || (folder ++ ['/']).isPrefixOf tag

section

variable (foldCase : Char → ℕ)

/-- `rewriteTags` of `rename`. -/
def swapTag (tags : List Tag) (oldTag newTag : Tag) : List Tag := tags.filter (· ≠ oldTag) ++ [newTag]

/-- What `rename` does to a file in the folder. -/
def renameTags (source target : Tag) (tags : List Tag) : List Tag :=
  tags.foldl (fun current tag =>
    if inFolder source tag then swapTag current tag (Replace.replace foldCase source target tag) else current) tags

/-- `TagsProtocol::rename`. -/
def rename (src dst : ParseResult) (files : TaggedFiles) : Except (List Char) TaggedFiles :=
  match src.urlType, dst.urlType with
  | .invalidUrl, _ => .error src.decodedUrl
  | _, .invalidUrl => .error dst.decodedUrl
  | srcType, _ =>
    -- the file already has the tag
    if dst.tag ∈ tags files src.fileUrl then .ok files
    else if srcType = .fileUrl then
      .ok (Function.update files src.fileUrl (swapTag (files src.fileUrl) src.tag dst.tag))
    else
      .ok (src.query.foldl (fun files path =>
        if path = src.fileUrl then Function.update files path (swapTag (files path) src.tag dst.tag)
        else if src.fileUrl = [] then
          Function.update files path (renameTags foldCase src.tag dst.tag (files path))
        else files) files)

/-- What `del` does to a file in the folder. -/
def deleteTags (folder : Tag) (tags : List Tag) : List Tag :=
  tags.foldl (fun current tag =>
    if tag = folder || Replace.startsWith foldCase tag (folder ++ ['/']) then current.filter (· ≠ tag)
    else current) tags

/-- `TagsProtocol::del`. -/
def del (result : ParseResult) (files : TaggedFiles) : Except (List Char) TaggedFiles :=
  match result.urlType with
  | .invalidUrl => .error result.decodedUrl
  | _ =>
    .ok (result.query.foldl (fun files path =>
      if path = result.fileUrl then Function.update files path ((files path).filter (· ≠ result.tag))
      else if result.fileUrl = [] then
        Function.update files path (deleteTags foldCase result.tag (files path))
      else files) files)

end

/-! ## What is expected -/

/-- The folder is moved, with the tags in it. -/
def movedTag (source target tag : Tag) : Tag :=
  if inFolder source tag then target ++ tag.drop source.length else tag

/-- The tags are those with the folder moved, and none is lost or there twice. -/
structure Moved (source target : Tag) (before after : List Tag) : Prop where
  /-- none is there twice -/
  nodup : after.Nodup
  /-- they are the tags with the folder moved -/
  perm : after.Perm (before.map (movedTag source target))

/-- The tags of the folder have been removed, and no others. -/
def Removed (folder : Tag) (before after : List Tag) : Prop := after = before.filter fun tag => !inFolder folder tag

/-- The name of the folder is replaced at the front of a tag only, and no tag gets the name of another that is there. -/
structure Renameable (foldCase : Char → ℕ) (source target : Tag) (tags : List Tag) : Prop where
  /-- replacing it again changes nothing -/
  once : ∀ tag ∈ tags, inFolder source tag = true →
    Replace.replace foldCase source target (tag.drop source.length) = tag.drop source.length
  /-- no new name is that of a tag outside of the folder -/
  outside : ∀ tag ∈ tags, inFolder source tag = true →
    ∀ other ∈ tags, inFolder source other = false → movedTag source target tag ≠ other
  /-- no new name is that of a tag in the folder that is to be renamed later -/
  inside : (tags.filter (inFolder source)).Pairwise fun tag later => movedTag source target tag ≠ later

/-- No tag starts with the name of the folder and a slash in another case only. -/
def SameCase (foldCase : Char → ℕ) (folder : Tag) (tags : List Tag) : Prop :=
  ∀ tag ∈ tags, Replace.startsWith foldCase tag (folder ++ ['/']) = true → inFolder folder tag = true

/-- The file has tags of the folder. -/
def HasFolder (folder : Tag) (tags : List Tag) : Prop := ∃ tag ∈ tags, inFolder folder tag = true

/-! ## Tags of a folder -/

variable {foldCase : Char → ℕ} {source target tag : Tag}

theorem inFolder_iff :
    inFolder source tag = true ↔ ∃ rest, tag = source ++ rest ∧ (rest = [] ∨ rest.head? = some '/') := by
  rw [inFolder, Bool.or_eq_true, decide_eq_true_iff, List.isPrefixOf_iff_prefix]
  constructor
  · rintro (rfl | ⟨rest, rfl⟩)
    · exact ⟨[], (List.append_nil _).symm, .inl rfl⟩
    · exact ⟨'/' :: rest, by simp, .inr rfl⟩
  · rintro ⟨rest, rfl, rfl | hhead⟩
    · exact .inl (List.append_nil _)
    · obtain ⟨rest, rfl⟩ := List.head?_eq_some_iff.mp hhead
      exact .inr ⟨rest, by simp⟩

theorem append_drop (h : inFolder source tag = true) : source ++ tag.drop source.length = tag := by
  obtain ⟨rest, rfl, -⟩ := inFolder_iff.mp h
  rw [List.drop_left]

/-- Tags of the folder are told by what follows its name. -/
theorem eq_of_drop_eq {other : Tag} (h : inFolder source tag = true) (hother : inFolder source other = true)
    (heq : tag.drop source.length = other.drop source.length) : tag = other := by
  rw [← append_drop h, ← append_drop hother, heq]

theorem movedTag_of_inFolder (h : inFolder source tag = true) :
    movedTag source target tag = target ++ tag.drop source.length := if_pos h

theorem movedTag_of_not_inFolder (h : inFolder source tag = false) : movedTag source target tag = tag := by
  rw [movedTag, h]
  rfl

/-- A tag stays, or it is in the folder. -/
theorem movedTag_eq_or (source target tag : Tag) :
    movedTag source target tag = tag ∨ inFolder source tag = true :=
  (Bool.eq_false_or_eq_true (inFolder source tag)).symm.imp movedTag_of_not_inFolder id

theorem length_movedTag (h : inFolder source tag = true) :
    (movedTag source target tag).length + source.length = tag.length + target.length := by
  have hdrop := congrArg List.length (append_drop h)
  rw [List.length_append] at hdrop
  rw [movedTag_of_inFolder h, List.length_append]
  omega

/-- The name of another folder makes another tag. -/
theorem movedTag_ne (hne : source ≠ target) (h : inFolder source tag = true) : movedTag source target tag ≠ tag := by
  intro heq
  rw [movedTag_of_inFolder h] at heq
  have happend := heq.trans (append_drop h).symm
  exact hne (List.append_cancel_right happend).symm

/-- In a tag of the folder, the name of the folder is replaced at the front, and perhaps behind. -/
theorem replace_of_inFolder (hsource : source ≠ []) (h : inFolder source tag = true) :
    Replace.replace foldCase source target tag =
      target ++ Replace.replace foldCase source target (tag.drop source.length) := by
  rw [← Replace.replace_pattern hsource, append_drop h]

theorem replace_eq_movedTag_iff (hsource : source ≠ []) (h : inFolder source tag = true) :
    Replace.replace foldCase source target tag = movedTag source target tag ↔
      Replace.replace foldCase source target (tag.drop source.length) = tag.drop source.length := by
  rw [replace_of_inFolder hsource h, movedTag_of_inFolder h, List.append_cancel_left_eq]

/-! ## The loop of `rename` -/

section

variable (p : Tag → Bool) (f : Tag → Tag)

/-- The new names that are still there in the end: a name that is renamed later is not. -/
def surviving : List Tag → List Tag
  | [] => []
  | tag :: later =>
    if p tag then
      if p (f tag) ∧ f tag ∈ later then surviving later else f tag :: surviving later
    else surviving later

variable {p f}

/-- A round that takes a tag out leaves to the later rounds what is not the tag. -/
theorem filter_round_pos {tag : Tag} (hp : p tag = true) (later current : List Tag) :
    (current.filter (· ≠ tag)).filter (fun other => !(p other && decide (other ∈ later))) =
      current.filter fun other => !(p other && decide (other ∈ tag :: later)) := by
  rw [List.filter_filter]
  refine List.filter_congr fun other _ => ?_
  by_cases heq : other = tag
  · simp [heq, hp]
  · simp [heq]

/-- A round that does nothing leaves everything to the later rounds. -/
theorem filter_round_neg {tag : Tag} (hp : ¬ p tag = true) (later current : List Tag) :
    current.filter (fun other => !(p other && decide (other ∈ later))) =
      current.filter fun other => !(p other && decide (other ∈ tag :: later)) := by
  refine List.filter_congr fun other _ => ?_
  by_cases heq : other = tag
  · simp [heq, hp]
  · simp [heq]

/-- The tags that are not renamed stay, and the new names are appended. -/
theorem foldl_swapTag (todo current : List Tag) :
    todo.foldl (fun current tag => if p tag then swapTag current tag (f tag) else current) current =
      current.filter (fun tag => !(p tag && decide (tag ∈ todo))) ++ surviving p f todo := by
  induction todo generalizing current with
  | nil => simp [surviving]
  | cons tag later ih =>
    rw [List.foldl_cons, ih, surviving]
    by_cases hp : p tag = true
    · rw [if_pos hp, if_pos hp, swapTag, List.filter_append, filter_round_pos hp, List.append_assoc]
      congr 1
      by_cases hlater : p (f tag) = true ∧ f tag ∈ later
      · simp [hlater]
      · simp only [if_neg hlater, List.filter_cons, List.filter_nil]
        rw [if_pos (by simpa [imp_iff_not_or] using hlater)]
        rfl
    · rw [if_neg hp, if_neg hp, filter_round_neg hp]

/-- The loop of `del`: the tags with the property are taken out. -/
theorem foldl_filter_ne (todo current : List Tag) :
    todo.foldl (fun current tag => if p tag then current.filter (· ≠ tag) else current) current =
      current.filter fun tag => !(p tag && decide (tag ∈ todo)) := by
  induction todo generalizing current with
  | nil => simp
  | cons tag later ih =>
    rw [List.foldl_cons, ih]
    by_cases hp : p tag = true
    · rw [if_pos hp, filter_round_pos hp]
    · rw [if_neg hp, filter_round_neg hp]

theorem length_surviving_le (tags : List Tag) : (surviving p f tags).length ≤ (tags.filter p).length := by
  induction tags with
  | nil => simp [surviving]
  | cons tag later ih =>
    rw [surviving, List.filter_cons]
    by_cases hp : p tag = true
    · rw [if_pos hp, if_pos hp]
      split
      · exact ih.trans (Nat.le_succ _)
      · exact Nat.succ_le_succ ih
    · rwa [if_neg hp, if_neg hp]

/-- All new names are there in the end if and only if none of them is renamed later. -/
theorem surviving_eq_map {tags : List Tag} (h : (tags.filter p).Pairwise fun tag later => f tag ≠ later) :
    surviving p f tags = (tags.filter p).map f := by
  induction tags with
  | nil => rfl
  | cons tag later ih =>
    rw [surviving]
    by_cases hp : p tag = true
    · rw [List.filter_cons_of_pos hp, List.pairwise_cons] at h
      have hnot : ¬ (p (f tag) = true ∧ f tag ∈ later) := fun hlater =>
        h.1 (f tag) (List.mem_filter.mpr ⟨hlater.2, hlater.1⟩) rfl
      rw [if_pos hp, if_neg hnot, ih h.2, List.filter_cons_of_pos hp, List.map_cons]
    · rw [List.filter_cons_of_neg hp] at h
      rw [if_neg hp, ih h, List.filter_cons_of_neg hp]

theorem pairwise_of_length_surviving {tags : List Tag}
    (h : (surviving p f tags).length = (tags.filter p).length) :
    (tags.filter p).Pairwise fun tag later => f tag ≠ later := by
  induction tags with
  | nil => exact .nil
  | cons tag later ih =>
    rw [surviving, List.filter_cons] at h
    by_cases hp : p tag = true
    · rw [if_pos hp, if_pos hp, List.length_cons] at h
      by_cases hlater : p (f tag) = true ∧ f tag ∈ later
      · rw [if_pos hlater] at h
        have hle := length_surviving_le (p := p) (f := f) later
        omega
      · rw [if_neg hlater, List.length_cons, Nat.succ_inj] at h
        rw [List.filter_cons_of_pos hp]
        refine .cons (fun other hother heq => hlater ?_) (ih h)
        obtain ⟨hmem, hother⟩ := List.mem_filter.mp hother
        exact heq ▸ ⟨hother, hmem⟩
    · rw [if_neg hp, if_neg hp] at h
      rw [List.filter_cons_of_neg hp]
      exact ih h

end

/-! ## The tags of a file -/

theorem renameTags_eq (tags : List Tag) :
    renameTags foldCase source target tags = tags.filter (fun tag => !inFolder source tag) ++
      surviving (inFolder source) (Replace.replace foldCase source target) tags := by
  rw [renameTags, foldl_swapTag]
  congr 1
  exact List.filter_congr fun tag htag => by simp [htag]

/-- The tags with the folder moved are those outside of it, and the new names. -/
theorem map_movedTag_perm (tags : List Tag) :
    (tags.map (movedTag source target)).Perm (tags.filter (fun tag => !inFolder source tag) ++
      (tags.filter (inFolder source)).map (movedTag source target)) := by
  have hstay : (tags.filter fun tag => !inFolder source tag).map (movedTag source target) =
      tags.filter fun tag => !inFolder source tag := by
    refine (List.map_congr_left fun tag htag => ?_).trans (List.map_id _)
    exact movedTag_of_not_inFolder (by simpa using (List.mem_filter.mp htag).2)
  rw [← hstay, ← List.map_append]
  exact ((List.filter_append_perm (inFolder source) tags).symm.trans List.perm_append_comm).map _

/-- What follows the name of the folder differs from tag to tag. -/
theorem nodup_rests {tags : List Tag} (hnodup : tags.Nodup) :
    ((tags.filter (inFolder source)).map fun tag => tag.drop source.length).Nodup := by
  refine List.Nodup.map_on (fun tag htag other hother => ?_) (hnodup.filter _)
  exact eq_of_drop_eq (List.mem_filter.mp htag).2 (List.mem_filter.mp hother).2

theorem Renameable.moved {tags : List Tag} (h : Renameable foldCase source target tags) (hsource : source ≠ [])
    (hnodup : tags.Nodup) : Moved source target tags (renameTags foldCase source target tags) := by
  have hnew : ∀ tag ∈ tags.filter (inFolder source),
      Replace.replace foldCase source target tag = movedTag source target tag := by
    intro tag htag
    obtain ⟨htag, hin⟩ := List.mem_filter.mp htag
    exact (replace_eq_movedTag_iff hsource hin).mpr (h.once tag htag hin)
  have hmap : surviving (inFolder source) (Replace.replace foldCase source target) tags =
      (tags.filter (inFolder source)).map (movedTag source target) := by
    rw [surviving_eq_map, List.map_congr_left hnew]
    refine h.inside.imp_of_mem fun htag _ hne => ?_
    rwa [hnew _ htag]
  have hperm : (renameTags foldCase source target tags).Perm (tags.map (movedTag source target)) := by
    rw [renameTags_eq, hmap]
    exact (map_movedTag_perm tags).symm
  refine ⟨?_, hperm⟩
  rw [renameTags_eq, hmap, List.nodup_append]
  refine ⟨hnodup.filter _, ?_, fun other hother new hnew heq => ?_⟩
  · refine List.Nodup.map_on (fun tag htag other hother heq => ?_) (hnodup.filter _)
    have hin := (List.mem_filter.mp htag).2
    have hin' := (List.mem_filter.mp hother).2
    rw [movedTag_of_inFolder hin, movedTag_of_inFolder hin', List.append_cancel_left_eq] at heq
    exact eq_of_drop_eq hin hin' heq
  · obtain ⟨tag, htag, rfl⟩ := List.mem_map.mp hnew
    obtain ⟨htag, hin⟩ := List.mem_filter.mp htag
    obtain ⟨hother, hout⟩ := List.mem_filter.mp hother
    exact h.outside tag htag hin other hother (by simpa using hout) heq.symm

theorem Moved.renameable {tags : List Tag}
    (h : Moved source target tags (renameTags foldCase source target tags)) (hsource : source ≠ [])
    (hnodup : tags.Nodup) : Renameable foldCase source target tags := by
  obtain ⟨hnodup', hperm⟩ := h
  rw [renameTags_eq] at hperm hnodup'
  have hperm' := (List.perm_append_left_iff _).mp (hperm.trans (map_movedTag_perm tags))
  have hlater := pairwise_of_length_surviving (hperm'.length_eq.trans (List.length_map _))
  rw [surviving_eq_map hlater] at hperm' hnodup'
  -- the same texts follow the name of the folder before and after
  have hrests : (((tags.filter (inFolder source)).map fun tag => tag.drop source.length).map
      (Replace.replace foldCase source target)).Perm
      ((tags.filter (inFolder source)).map fun tag => tag.drop source.length) := by
    have hdrop := hperm'.map fun tag => tag.drop target.length
    rw [List.map_map, List.map_map] at hdrop
    rw [List.map_map]
    convert hdrop using 1
    · refine List.map_congr_left fun tag htag => ?_
      have hin := (List.mem_filter.mp htag).2
      simp only [Function.comp_apply, replace_of_inFolder hsource hin, List.drop_left]
    · refine List.map_congr_left fun tag htag => ?_
      have hin := (List.mem_filter.mp htag).2
      simp only [Function.comp_apply, movedTag_of_inFolder hin, List.drop_left]
  have honce := Replace.fixed_of_map_perm hsource (nodup_rests hnodup) hrests
  have honce' : ∀ tag ∈ tags, inFolder source tag = true →
      Replace.replace foldCase source target (tag.drop source.length) = tag.drop source.length :=
    fun tag htag hin => honce _ (List.mem_map_of_mem (List.mem_filter.mpr ⟨htag, hin⟩))
  have hnew : ∀ tag ∈ tags, inFolder source tag = true →
      Replace.replace foldCase source target tag = movedTag source target tag :=
    fun tag htag hin => (replace_eq_movedTag_iff hsource hin).mpr (honce' tag htag hin)
  refine ⟨honce', fun tag htag hin other hother hout heq => ?_, hlater.imp_of_mem fun htag _ hne => ?_⟩
  · refine (List.nodup_append.mp hnodup').2.2 other (List.mem_filter.mpr ⟨hother, by simp [hout]⟩) _
      (List.mem_map_of_mem (List.mem_filter.mpr ⟨htag, hin⟩)) ?_
    rw [hnew tag htag hin, heq]
  · obtain ⟨htag, hin⟩ := List.mem_filter.mp htag
    rwa [← hnew _ htag hin]

/-- If moving the folder gives the same tags again, it moves none of them. -/
theorem movedTag_eq_of_perm (hne : source ≠ target) {tags : List Tag} (hnodup : tags.Nodup)
    (hperm : tags.Perm (tags.map (movedTag source target))) (htag : tag ∈ tags) :
    movedTag source target tag = tag := by
  have hshorter := InvImage.wf (List.length : Tag → ℕ) Nat.lt_wfRel.wf
  rcases lt_trichotomy target.length source.length with hlt | heq | hlt
  · refine Replace.fixed_of_smaller hshorter hnodup hperm.symm (fun other => ?_) tag htag
    refine (movedTag_eq_or source target other).imp id fun hother => ?_
    have hlen : (movedTag source target other).length + source.length = _ := length_movedTag hother
    show (movedTag source target other).length < other.length
    omega
  · -- what has been moved is not in the folder any more
    refine Replace.fixed_of_idempotent hperm.symm (fun other => ?_) tag htag
    rcases Bool.eq_false_or_eq_true (inFolder source other) with hother | hother
    · refine movedTag_of_not_inFolder (Bool.eq_false_iff.mpr fun hmoved => hne ?_)
      rw [movedTag_of_inFolder hother] at hmoved
      exact (List.append_inj (append_drop hmoved) heq.symm).1
    · rw [movedTag_of_not_inFolder hother, movedTag_of_not_inFolder hother]
  · refine Replace.fixed_of_greater hshorter hperm.symm (fun other => ?_) tag htag
    refine (movedTag_eq_or source target other).imp id fun hother => ?_
    have hlen : (movedTag source target other).length + source.length = _ := length_movedTag hother
    show other.length < (movedTag source target other).length
    omega

/-- The tags of a file that is not found stay what they are. -/
theorem moved_self_iff {tags : List Tag} (hnodup : tags.Nodup) :
    Moved source target tags tags ↔ source = target ∨ ¬ HasFolder source tags := by
  constructor
  · rintro ⟨-, hperm⟩
    by_contra hnot
    obtain ⟨hne, htag⟩ := not_or.mp hnot
    obtain ⟨tag, htag, hin⟩ := not_not.mp htag
    exact movedTag_ne hne hin (movedTag_eq_of_perm hne hnodup hperm htag)
  · intro h
    refine ⟨hnodup, .of_eq ((List.map_id _).symm.trans (List.map_congr_left fun tag htag => ?_))⟩
    cases hin : inFolder source tag with
    | false => exact (movedTag_of_not_inFolder hin).symm
    | true =>
      obtain rfl := h.resolve_right fun hnone => hnone ⟨tag, htag, hin⟩
      rw [movedTag_of_inFolder hin, append_drop hin]
      rfl

theorem startsWith_of_inFolder (h : inFolder source tag = true) :
    (tag = source || Replace.startsWith foldCase tag (source ++ ['/'])) = true := by
  rw [inFolder, Bool.or_eq_true, List.isPrefixOf_iff_prefix] at h
  rw [Bool.or_eq_true]
  refine h.imp id fun hprefix => ?_
  obtain ⟨rest, rfl⟩ := hprefix
  exact Replace.startsWith_append

theorem deleteTags_eq (folder : Tag) (tags : List Tag) : deleteTags foldCase folder tags =
    tags.filter fun tag => !(tag = folder || Replace.startsWith foldCase tag (folder ++ ['/'])) := by
  rw [deleteTags, foldl_filter_ne]
  exact List.filter_congr fun tag htag => by simp [htag]

theorem removed_deleteTags_iff {folder : Tag} {tags : List Tag} :
    Removed folder tags (deleteTags foldCase folder tags) ↔ SameCase foldCase folder tags := by
  rw [Removed, deleteTags_eq]
  constructor
  · intro h tag htag hstarts
    by_contra hout
    have hmem : tag ∈ tags.filter fun tag => !inFolder folder tag :=
      List.mem_filter.mpr ⟨htag, by simpa using hout⟩
    rw [← h, List.mem_filter] at hmem
    simp [hstarts] at hmem
  · intro h
    refine List.filter_congr fun tag htag => congrArg not ?_
    rw [Bool.eq_iff_iff]
    refine ⟨fun hdeleted => ?_, startsWith_of_inFolder⟩
    rcases Bool.or_eq_true_iff.mp hdeleted with heq | hstarts
    · rw [inFolder, Bool.or_eq_true]
      exact .inl heq
    · exact h tag htag hstarts

theorem removed_self_iff {folder : Tag} {tags : List Tag} : Removed folder tags tags ↔ ¬ HasFolder folder tags := by
  rw [Removed, eq_comm, List.filter_eq_self, HasFolder]
  simp

/-! ## All files -/

/-- A loop that changes one file after another, each of them once. -/
theorem foldl_update (g : List Tag → List Tag) {paths : List QByteArray} (hnodup : paths.Nodup)
    (files : TaggedFiles) (path : QByteArray) :
    paths.foldl (fun files path => Function.update files path (g (files path))) files path =
      if path ∈ paths then g (files path) else files path := by
  induction paths generalizing files with
  | nil => simp
  | cons first paths ih =>
    obtain ⟨hfirst, hnodup⟩ := List.nodup_cons.mp hnodup
    rw [List.foldl_cons, ih hnodup]
    by_cases heq : path = first
    · subst heq
      rw [if_neg hfirst, if_pos List.mem_cons_self, Function.update_self]
    · rw [Function.update_of_ne heq]
      simp [heq]

/-- With the address of a folder, every file that is found is changed in the loop. -/
theorem foldl_folder {result : ParseResult} (htype : result.urlType = .tagUrl) (g g' : List Tag → List Tag)
    (files : TaggedFiles) :
    result.query.foldl (fun files path =>
      if path = result.fileUrl then Function.update files path (g' (files path))
      else if result.fileUrl = [] then Function.update files path (g (files path)) else files) files =
    result.query.foldl (fun files path => Function.update files path (g (files path))) files := by
  refine List.foldl_ext _ _ _ fun files path hpath => ?_
  have hne : path ≠ result.fileUrl := fun heq => result.isFile.2 (result.isTagUrl htype ▸ heq ▸ hpath)
  rw [if_neg hne, if_pos (result.isTagUrl htype)]

theorem rename_eq {src dst : ParseResult} {files : TaggedFiles} (hsrc : src.urlType = .tagUrl)
    (hdst : dst.urlType ≠ .invalidUrl) :
    rename foldCase src dst files = .ok (src.query.foldl (fun files path =>
      Function.update files path (renameTags foldCase src.tag dst.tag (files path))) files) := by
  have hnone : dst.tag ∉ tags files src.fileUrl := by
    rw [src.isTagUrl hsrc]
    exact List.not_mem_nil
  have hfolder := foldl_folder hsrc (renameTags foldCase src.tag dst.tag) (swapTag · src.tag dst.tag) files
  rw [rename, hsrc]
  cases hdst' : dst.urlType with
  | invalidUrl => exact absurd hdst' hdst
  | fileUrl | tagUrl =>
    dsimp only
    rw [if_neg hnone, if_neg (by simp), hfolder]

theorem del_eq {result : ParseResult} {files : TaggedFiles} (htype : result.urlType = .tagUrl) :
    del foldCase result files = .ok (result.query.foldl (fun files path =>
      Function.update files path (deleteTags foldCase result.tag (files path))) files) := by
  rw [del, htype]
  exact congrArg Except.ok (foldl_folder htype (deleteTags foldCase result.tag) (·.filter (· ≠ result.tag)) files)

/-- **A tag folder is renamed and deleted** as it should be exactly if the file is found, unless it has no tags of the
folder, its name is replaced at the front of each tag only, no tag gets the name of another that is there, and no
other folder differs from it only in case. -/
theorem tag_folder_changed {src dst : ParseResult} {files : TaggedFiles} {path : QByteArray}
    (hsrc : src.urlType = .tagUrl) (hdst : dst.urlType ≠ .invalidUrl) (hsource : src.tag ≠ [])
    (hnodup : (files path).Nodup) :
    ∃ renamed deleted, rename foldCase src dst files = .ok renamed ∧ del foldCase src files = .ok deleted ∧
      (Moved src.tag dst.tag (files path) (renamed path) ↔
        if path ∈ src.query then Renameable foldCase src.tag dst.tag (files path)
        else src.tag = dst.tag ∨ ¬ HasFolder src.tag (files path)) ∧
      (Removed src.tag (files path) (deleted path) ↔
        if path ∈ src.query then SameCase foldCase src.tag (files path) else ¬ HasFolder src.tag (files path)) := by
  refine ⟨_, _, rename_eq hsrc hdst, del_eq hsrc, ?_, ?_⟩
  · rw [foldl_update _ src.isFile.1]
    split
    · exact ⟨fun h => h.renameable hsource hnodup, fun h => h.moved hsource hnodup⟩
    · exact moved_self_iff hnodup
  · rw [foldl_update _ src.isFile.1]
    split
    · exact removed_deleteTags_iff
    · exact removed_self_iff

/-- Letters of both cases are the same. -/
def lowerCase (c : Char) : ℕ := c.toLower.toNat

/-- The address of a tag folder in which there is one file. -/
def oneFile (tag : String) : ParseResult where
  urlType := .tagUrl
  tag := tag.toList
  query := [[47, 102]]

theorem tag_folder_changed_work : ∃ renamed deleted,
    rename lowerCase (oneFile "work") (oneFile "job") (fun _ => ["work".toList, "home".toList, "work/Tax".toList]) =
      .ok renamed ∧
    del lowerCase (oneFile "work") (fun _ => ["work".toList, "home".toList, "work/Tax".toList]) = .ok deleted ∧
    Moved "work".toList "job".toList ["work".toList, "home".toList, "work/Tax".toList] (renamed [47, 102]) ∧
    Removed "work".toList ["work".toList, "home".toList, "work/Tax".toList] (deleted [47, 102]) := by
  obtain ⟨renamed, deleted, hrenamed, hdeleted, hmoved, hremoved⟩ :=
    @tag_folder_changed lowerCase (oneFile "work") (oneFile "job")
      (fun _ => ["work".toList, "home".toList, "work/Tax".toList]) [47, 102] rfl (by decide) (by decide) (by decide)
  rw [if_pos (by decide)] at hmoved hremoved
  refine ⟨renamed, deleted, hrenamed, hdeleted, hmoved.mpr ⟨?_, ?_, ?_⟩, hremoved.mpr ?_⟩
  · decide
  · decide
  · decide
  · unfold SameCase
    decide

/-- The folder `a` becomes `b`, and so does each letter `a` in the tag below it. -/
theorem banana_renamed : ∃ renamed,
    rename lowerCase (oneFile "a") (oneFile "b") (fun _ => ["a/banana".toList]) = .ok renamed ∧
      renamed [47, 102] = ["b/bbnbnb".toList] ∧
      ¬ Moved "a".toList "b".toList ["a/banana".toList] (renamed [47, 102]) := by
  refine ⟨_, rfl, by decide, fun h => ?_⟩
  have hmem := h.perm.subset (List.mem_singleton_self "b/bbnbnb".toList)
  revert hmem
  decide

end TagsProtocol

end Baloo
