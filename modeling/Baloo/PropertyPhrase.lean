import Baloo.Result
import Baloo.TextQueries
import Baloo.Transactions

/-!
# Properties with several values

An extractor may give a property several values. They are written twice: as terms with the prefix of the
property, all values together, and as JSON, a string for one value and an array for several. A query of one
term asks the terms. A query of several terms asks the terms and then the JSON, where it looks for a string
and takes an array for an empty one.

So several terms find a document exactly if the property has one value, which is not empty and has the terms
side by side (`yields_property`); with more values the document is missed whatever they are.
-/

namespace Baloo

open Fuel (Returns)
open Search (ascii number)

/-! ## Collecting the properties -/

/-- What an extractor passes to `Result::add`. -/
inductive ExtractedValue where
  /-- a value that is no list of strings -/
  | value (v : QVariant)
  /-- `QMetaType::QStringList` -/
  | stringList (l : List (List QChar))

namespace PropertyMultiMap

/-- `QMultiMap::insert`: in front of the values that the key has. -/
def insert (property : ℕ) (v : QVariant) : PropertyMultiMap → PropertyMultiMap
  | [] => [(property, v)]
  | e :: map => if property ≤ e.1 then (property, v) :: e :: map else e :: insert property v map

/-- The values of a key. -/
def values (property : ℕ) (map : PropertyMultiMap) : List QVariant :=
  (map.filter fun e => e.1 = property).map Prod.snd

end PropertyMultiMap

/-- `Result::add`. -/
def Result.add (r : Result) (property : ℕ) : ExtractedValue → Result
  | .stringList valueList =>
    { r with map := valueList.foldl (fun map val => PropertyMultiMap.insert property (.string val) map) r.map }
  | .value v => { r with map := PropertyMultiMap.insert property v r.map }

/-- The calls of an extractor. -/
def Result.addAll (r : Result) (adds : List (ℕ × ExtractedValue)) : Result :=
  adds.foldl (fun r e => r.add e.1 e.2) r

/-- The values that are added. -/
def ExtractedValue.values : ExtractedValue → List QVariant
  | .value v => [v]
  | .stringList l => l.map .string

/-! ## The JSON -/

/-- `QJsonValue`. -/
inductive QJsonValue where
  /-- `QJsonValue::fromVariant` -/
  | variant (v : QVariant)
  /-- `QJsonArray` of such values -/
  | array (values : List QVariant)

/-- `QJsonObject`. -/
abbrev QJsonObject : Type := OrdMap (List QChar) QJsonValue

/-- `QString::number`. -/
def keyString (property : ℕ) : List QChar := latin1String (Nat.toDigits 10 property)

/-- One round of the loop of `propertyMapToJson`: the values of one key, of which `first` comes first. -/
def rangeToJson (first : QVariant) (rest : List QVariant) : QJsonValue :=
  -- earlier elements are prepended
  if rest ≠ [] then .array (first :: rest).reverse else .variant first

/-- The loop of `propertyMapToJson`; a round takes at least one element. -/
def propertyMapToJsonLoop : ℕ → QJsonObject → PropertyMultiMap → QJsonObject
  | 0, jsonDict, _ => jsonDict
  | _, jsonDict, [] => jsonDict
  | rounds + 1, jsonDict, (property, first) :: rest =>
    let range := rest.takeWhile fun e => e.1 = property
    propertyMapToJsonLoop rounds (jsonDict.put (keyString property) (rangeToJson first (range.map Prod.snd)))
      (rest.dropWhile fun e => e.1 = property)

/-- `propertyMapToJson`. -/
def propertyMapToJson (properties : PropertyMultiMap) : QJsonObject :=
  propertyMapToJsonLoop properties.length ∅ properties

/-- The object that `Result::finish` writes. -/
def Result.json (mimetype : List QChar) (map : PropertyMultiMap) : QJsonObject :=
  (propertyMapToJson map).put Transaction.mimetypeKey (.variant (.string mimetype))

/-! ## The values of a property -/

namespace PropertyMultiMap

variable {p q : ℕ} {v : QVariant} {map : PropertyMultiMap}

/-- The keys are in order. -/
def Sorted (map : PropertyMultiMap) : Prop := map.Pairwise fun a b => a.1 ≤ b.1

theorem mem_values : v ∈ map.values p ↔ (p, v) ∈ map := by
  simp only [values, List.mem_map, List.mem_filter, decide_eq_true_iff]
  constructor
  · rintro ⟨⟨_, _⟩, ⟨hmem, rfl⟩, rfl⟩
    exact hmem
  · exact fun hmem => ⟨_, ⟨hmem, rfl⟩, rfl⟩

theorem mem_insert {e : ℕ × QVariant} : e ∈ map.insert q v ↔ e = (q, v) ∨ e ∈ map := by
  induction map with
  | nil => simp [insert]
  | cons a map ih =>
    rw [insert]
    split
    · exact List.mem_cons
    · rw [List.mem_cons, ih, List.mem_cons]
      exact or_left_comm

theorem Sorted.insert (h : map.Sorted) (q : ℕ) (v : QVariant) : (map.insert q v).Sorted := by
  induction map with
  | nil => exact List.pairwise_singleton _ _
  | cons a map ih =>
    obtain ⟨ha, hmap⟩ := List.pairwise_cons.mp h
    rw [PropertyMultiMap.insert]
    split
    · next hle =>
      refine List.pairwise_cons.mpr ⟨fun b hb => ?_, h⟩
      rcases List.mem_cons.mp hb with rfl | hb
      · exact hle
      · exact hle.trans (ha b hb)
    · next hlt =>
      refine List.pairwise_cons.mpr ⟨fun b hb => ?_, ih hmap⟩
      rcases mem_insert.mp hb with rfl | hb
      · exact (not_le.mp hlt).le
      · exact ha b hb

/-- The new value is the first one of its key. -/
theorem values_insert (h : map.Sorted) :
    (map.insert q v).values p = if p = q then v :: map.values p else map.values p := by
  induction map with
  | nil =>
    rw [insert, values, List.filter_cons]
    by_cases hp : p = q
    · simp [hp, values]
    · simp [hp, Ne.symm hp, values]
  | cons a map ih =>
    obtain ⟨ha, hmap⟩ := List.pairwise_cons.mp h
    rw [insert]
    split
    · by_cases hp : p = q
      · simp [hp, values]
      · simp [hp, Ne.symm hp, values]
    · next hlt =>
      have hcons : ∀ m : PropertyMultiMap, values p (a :: m) = if a.1 = p then a.2 :: values p m else values p m := by
        intro m
        by_cases hap : a.1 = p <;> simp [values, hap]
      rw [hcons, hcons, ih hmap]
      by_cases hp : p = q
      · subst hp
        have hap : a.1 ≠ p := fun heq => hlt heq.ge
        simp [hap]
      · simp [hp]

end PropertyMultiMap

section Values

open PropertyMultiMap

variable {p : ℕ} {r : Result} {map : PropertyMultiMap} {adds : List (ℕ × ExtractedValue)}

/-- The values that the calls add for a property. -/
def addedValues (p : ℕ) (adds : List (ℕ × ExtractedValue)) : List QVariant :=
  adds.flatMap fun e => if e.1 = p then e.2.values else []

/-- One call. -/
theorem Result.add_spec (h : r.map.Sorted) (q : ℕ) (value : ExtractedValue) : (r.add q value).map.Sorted ∧
    (r.add q value).map.values p = (if q = p then value.values.reverse else []) ++ r.map.values p := by
  have hinsert : ∀ (l : List (List QChar)) (map : PropertyMultiMap), map.Sorted →
      (l.foldl (fun map val => map.insert q (.string val)) map).Sorted ∧
        (l.foldl (fun map val => map.insert q (.string val)) map).values p =
          (if q = p then (l.map QVariant.string).reverse else []) ++ map.values p := by
    intro l
    induction l with
    | nil => exact fun map hmap => ⟨hmap, by simp⟩
    | cons val l ih =>
      intro map hmap
      obtain ⟨hsorted, hvalues⟩ := ih _ (hmap.insert q (.string val))
      refine ⟨hsorted, ?_⟩
      rw [List.foldl_cons, hvalues, values_insert hmap]
      by_cases hq : q = p
      · simp [hq]
      · simp [hq, Ne.symm hq]
  cases value with
  | stringList l => exact hinsert l r.map h
  | value v =>
    refine ⟨h.insert q v, ?_⟩
    rw [add, values_insert h]
    by_cases hq : q = p
    · simp [hq, ExtractedValue.values]
    · simp [hq, Ne.symm hq]

/-- **All calls.** The values of a property are those that have been added, the last one first. -/
theorem Result.addAll_spec (h : r.map.Sorted) (adds : List (ℕ × ExtractedValue)) : (r.addAll adds).map.Sorted ∧
    (r.addAll adds).map.values p = (addedValues p adds).reverse ++ r.map.values p := by
  induction adds generalizing r with
  | nil => exact ⟨h, rfl⟩
  | cons e adds ih =>
    obtain ⟨hsorted, hvalues⟩ := @Result.add_spec p r h e.1 e.2
    obtain ⟨hsorted', hvalues'⟩ := ih hsorted
    refine ⟨hsorted', ?_⟩
    rw [addAll, List.foldl_cons, ← addAll, hvalues', hvalues, addedValues, addedValues, List.flatMap_cons]
    by_cases he : e.1 = p <;> simp [he]

/-- The calls leave the document and the text alone. -/
theorem Result.addAll_frame (r : Result) (adds : List (ℕ × ExtractedValue)) :
    (r.addAll adds).doc = r.doc ∧ (r.addAll adds).text = r.text := by
  induction adds generalizing r with
  | nil => exact ⟨rfl, rfl⟩
  | cons e adds ih =>
    obtain ⟨hdoc, htext⟩ := ih (r.add e.1 e.2)
    refine ⟨hdoc.trans ?_, htext.trans ?_⟩ <;> obtain ⟨q, _ | _⟩ := e <;> rfl

/-! ## What is written -/

/-- The key of a property is its number. -/
theorem number_of_keyString (p : ℕ) : (keyString p).map (fun c => UInt8.ofNat c.toNat) = number p := by
  rw [keyString, latin1String, List.map_map, number, ascii]
  refine List.map_congr_left fun c hc => ?_
  have hdigit := toNat_digit hc
  rw [Function.comp_apply, latin1Char, UInt16.toNat_ofNat', Nat.mod_eq_of_lt (by omega)]

/-- Properties have different keys. -/
theorem keyString_injective {p q : ℕ} (h : keyString p = keyString q) : p = q := by
  refine number_injective ?_
  rw [← number_of_keyString, h, number_of_keyString]

/-- No property has the key of the mimetype. -/
theorem keyString_ne_mimetypeKey (p : ℕ) : keyString p ≠ Transaction.mimetypeKey := by
  intro h
  have hmem : (77 : UInt8) ∈ number p := by
    rw [← number_of_keyString, h]
    exact List.mem_singleton_self _
  have hrange := (digit_range hmem).2
  simp at hrange

/-- What the values of a property become. -/
def valuesToJson : List QVariant → Option QJsonValue
  | [] => none
  | first :: rest => some (rangeToJson first rest)

/-- The values of the first key. -/
theorem range_eq {q : ℕ} (h : map.Sorted) (hq : ∀ e ∈ map, q ≤ e.1) :
    (map.takeWhile fun e => e.1 = q) = (map.filter fun e => e.1 = q) ∧
      (map.dropWhile fun e => e.1 = q) = map.filter fun e => e.1 ≠ q := by
  induction map with
  | nil => exact ⟨rfl, rfl⟩
  | cons a map ih =>
    obtain ⟨ha, hmap⟩ := List.pairwise_cons.mp h
    obtain ⟨htake, hdrop⟩ := ih hmap fun e he => hq e (List.mem_cons_of_mem _ he)
    by_cases haq : a.1 = q
    · simp [haq, htake, hdrop]
    · -- the keys that follow are greater
      have hlt : ∀ e ∈ a :: map, e.1 ≠ q := by
        have hqa := lt_of_le_of_ne (hq a List.mem_cons_self) (Ne.symm haq)
        intro e he
        rcases List.mem_cons.mp he with rfl | he
        · exact haq
        · exact (hqa.trans_le (ha e he)).ne'
      rw [List.takeWhile_cons_of_neg (by simpa using haq), List.dropWhile_cons_of_neg (by simpa using haq)]
      refine ⟨(List.filter_eq_nil_iff.mpr fun e he => ?_).symm, (List.filter_eq_self.mpr fun e he => ?_).symm⟩
      · simpa using hlt e he
      · simpa using hlt e he

theorem get_propertyMapToJsonLoop (h : map.Sorted) {rounds : ℕ} (hrounds : map.length ≤ rounds)
    (jsonDict : QJsonObject) :
    (propertyMapToJsonLoop rounds jsonDict map).get (keyString p) =
      (valuesToJson (map.values p)).or (jsonDict.get (keyString p)) := by
  induction rounds generalizing map jsonDict with
  | zero =>
    obtain rfl := List.eq_nil_of_length_eq_zero (Nat.le_zero.mp hrounds)
    rfl
  | succ rounds ih =>
    rcases map with _ | ⟨⟨q, first⟩, rest⟩
    · rfl
    · obtain ⟨hq, hrest⟩ := List.pairwise_cons.mp h
      obtain ⟨htake, hdrop⟩ := range_eq hrest hq
      have hsorted : Sorted (rest.dropWhile fun e => e.1 = q) := hrest.sublist (List.dropWhile_sublist _)
      have hlength : (rest.dropWhile fun e => e.1 = q).length ≤ rest.length := (List.dropWhile_sublist _).length_le
      rw [List.length_cons] at hrounds
      rw [propertyMapToJsonLoop, ih hsorted (by omega), hdrop, htake]
      by_cases hp : p = q
      · subst hp
        have hnone : values p (rest.filter fun e => e.1 ≠ p) = [] := by simp [values, List.filter_filter]
        rw [hnone, OrdMap.get_put, if_pos rfl]
        simp [valuesToJson, values]
      · have hkey : keyString p ≠ keyString q := fun heq => hp (keyString_injective heq)
        have hsame : values p (rest.filter fun e => e.1 ≠ q) = values p ((q, first) :: rest) := by
          rw [values, values, List.filter_filter, List.filter_cons_of_neg (by simpa using Ne.symm hp)]
          congr 1
          refine List.filter_congr fun e _ => ?_
          by_cases he : e.1 = p <;> simp [he, hp]
        rw [hsame, OrdMap.get_put, if_neg hkey]

theorem get_json (h : map.Sorted) (mimetype : List QChar) :
    (Result.json mimetype map).get (keyString p) = valuesToJson (map.values p) := by
  have hempty : (∅ : QJsonObject).get (keyString p) = none := OrdMap.get_empty _
  rw [Result.json, OrdMap.get_put, if_neg (keyString_ne_mimetypeKey p), propertyMapToJson,
    get_propertyMapToJsonLoop h (le_refl _), hempty, Option.or_none]

end Values

/-! ## The lookup -/

/-- Reading the iterator that is built to the end yields the document. -/
def PostingTree.Yields (t : PostingTree) (i : DocId) : Prop :=
  ∃ it S, Returns (fun n => t.build n) it ∧ PostingIterator.Answers it S ∧ i ∈ S

theorem PostingTree.Proper.yields_iff {t : PostingTree} (h : t.Proper) (i : DocId) : t.Yields i ↔ i ∈ t.ids := by
  obtain ⟨it, hit, hanswers⟩ := h.answers
  constructor
  · rintro ⟨it', S, hit', hanswers', hi⟩
    obtain rfl := hit.unique hit'
    cases it with
    | none =>
      have hS : S = ∅ := hanswers'
      exact absurd (hS ▸ hi) (Set.notMem_empty i)
    | some it =>
      obtain ⟨ids, hids, -, hmem⟩ := hanswers
      obtain ⟨ids', hids', -, hmem'⟩ := hanswers'
      obtain rfl := hids.unique hids'
      exact (hmem i).mp ((hmem' i).mpr hi)
  · exact fun hi => ⟨it, _, hit, hanswers, hi⟩

section Lookup

variable {t : PostingDB} {pre : QByteArray} {q : TextQuery} {keep : DocId → Bool}

/-- Without expansion a query asks for all its terms, and then for the text if there are several. -/
theorem ids_matching (ht : t.Listed) (hne : q.terms ≠ []) (hexpand : q.expandLast = false) :
    (matching keep (candidates t pre q)).Proper ∧ (matching keep (candidates t pre q)).ids =
      {i | (∀ term ∈ q.terms, i ∈ t.get (pre ++ term)) ∧ (2 ≤ q.terms.length → keep i = true)} := by
  rcases Nat.lt_or_ge q.terms.length 2 with hlen | hlen
  · obtain ⟨term, hq⟩ := List.length_eq_one_iff.mp
      (le_antisymm (Nat.le_of_lt_succ hlen) (List.length_pos_of_ne_nil hne))
    obtain ⟨terms, expandLast⟩ := q
    obtain rfl := hq
    obtain rfl := hexpand
    obtain ⟨hproper, hids⟩ := ht.iter (pre ++ term)
    exact ⟨hproper, hids.trans (by simp)⟩
  · obtain ⟨out, hout, hzero, hmem, hcases⟩ := @candidates_several t pre q ht hlen
    have hset : {i | i ∈ out.filter keep} =
        {i | (∀ term ∈ q.terms, i ∈ t.get (pre ++ term)) ∧ (2 ≤ q.terms.length → keep i = true)} := by
      ext i
      simp only [Set.mem_ofPred_eq, List.mem_filter, hmem, hlen, forall_true_left]
    rcases hcases with hok | ⟨hnull, rfl⟩
    · rw [hok, ← hset]
      exact ⟨.vector (hout.sublist List.filter_sublist) fun h => hzero (List.mem_of_mem_filter h),
        PostingTree.ids_vector _⟩
    · rw [hnull, ← hset]
      exact ⟨.null, PostingTree.ids_null.trans (by simp)⟩

end Lookup

/-- The index posts the document under its terms, and has its data. -/
structure Stores (db : Database) (doc : Document) : Prop where
  /-- the terms -/
  posted : ∀ t, doc.id ∈ db.postingDb.get t ↔ ∃ f, (doc.family f).contains t = true
  /-- the data -/
  data : OrdMap.get db.docDataDb doc.id = some doc.data

/-- What has been written last is stored. -/
theorem Committed.stores {A : Index} {db : Database} {doc : Document} (h : Committed KeepsApart db A)
    (hterms : A doc.id = doc.family) (hdata : OrdMap.get db.docDataDb doc.id = some doc.data) : Stores db doc := by
  refine ⟨fun t => ?_, hdata⟩
  have hentry := congrArg Entry.posted (h.holds.entry_eq t doc.id)
  have hnone : lookup doc.family t = none ↔ ∀ f, (doc.family f).get t = none := lookup_eq_none
  have hposted : doc.id ∈ db.postingDb.get t ↔ lookup doc.family t ≠ none := by
    rw [hterms] at hentry
    rcases hlookup : lookup doc.family t with _ | data
    · rw [hlookup] at hentry
      simpa [Database.entry, Entry.ofTermData] using hentry
    · rw [hlookup] at hentry
      simpa [Database.entry, Entry.ofTermData] using hentry
  rw [hposted, ne_eq, hnone, not_forall]
  refine exists_congr fun f => ?_
  rw [OrdMap.contains, Option.isSome_iff_ne_none]

/-- Without a document `0` the posting lists are in order. -/
theorem Committed.listed {A : Index} {db : Database} (h : Committed KeepsApart db A) (hzero : A 0 = fun _ => ∅) :
    db.postingDb.Listed := by
  refine ⟨fun term => h.holds.sorted.posting_get term, fun term hmem => ?_⟩
  have hentry := congrArg Entry.posted (h.holds.entry_eq term 0)
  have hnone : lookup (A 0) term = none := by
    rw [hzero]
    exact lookup_eq_none.mpr fun f => OrdMap.get_empty term
  rw [hnone] at hentry
  simp [Database.entry, Entry.ofTermData, hmem] at hentry

/-- What `QJsonDocument` reads of an object that it has written. -/
structure ReadsBack (toJson : QJsonObject → QByteArray) (jsonString : QByteArray → List QChar → List QChar)
    (object : QJsonObject) : Prop where
  /-- an object is written as something -/
  ne_nil : toJson object ≠ []
  /-- a string -/
  string : ∀ key s, object.get key = some (.variant (.string s)) → jsonString (toJson object) key = s
  /-- an array is no string -/
  array : ∀ key values, object.get key = some (.array values) → jsonString (toJson object) key = []
  /-- neither is nothing -/
  missing : ∀ key, object.get key = none → jsonString (toJson object) key = []

section Phrase

variable {tokens : Tokenizer} {toJson : QJsonObject → QByteArray} {jsonString : QByteArray → List QChar → List QChar}
  {decodeKey : QByteArray → List QChar} {p : ℕ} {adds : List (ℕ × ExtractedValue)} {doc : Document}
  {text : List (List QChar)} {mimetype : List QChar} {strings : List (List QChar)} {q : PropertyPhraseQuery}
  {db : Database} {term : Term} {r : Result}

/-- A term that the document has anyway, or has of its running text. -/
def Elsewhere (tokens : Tokenizer) (doc : Document) (text : List (List QChar)) (t : Term) : Prop :=
  (∃ f, (doc.family f).contains t = true) ∨ ∃ block ∈ text, t ∈ tokens.termList block

/-- `Result::finish`, with the JSON of the properties and of the mimetype. -/
def finished (tokens : Tokenizer) (toJson : QJsonObject → QByteArray) (mimetype : List QChar) (r : Result) : Document :=
  r.finish tokens fun map => toJson (Result.json mimetype map)

theorem exists_family_finished {t : Term} : (∃ f, ((finished tokens toJson mimetype r).family f).contains t = true) ↔
    Elsewhere tokens r.doc r.text t ∨ t ∈ propertyTerms tokens.termList r.map := by
  have hterms : (finished tokens toJson mimetype r).terms.contains t = true ↔ _ := contains_finish
  obtain ⟨terms, hframe⟩ := finish_frame tokens (fun map => toJson (Result.json mimetype map)) r
  have hexists : ∀ d : Document, (∃ f, (d.family f).contains t = true) ↔
      d.terms.contains t = true ∨ d.xattrTerms.contains t = true ∨ d.fileNameTerms.contains t = true := by
    intro d
    constructor
    · rintro ⟨_ | _ | _, hf⟩
      · exact .inl hf
      · exact .inr (.inl hf)
      · exact .inr (.inr hf)
    · rintro (h | h | h)
      · exact ⟨.terms, h⟩
      · exact ⟨.xattrTerms, h⟩
      · exact ⟨.fileNameTerms, h⟩
  have hxattrs : (finished tokens toJson mimetype r).xattrTerms = r.doc.xattrTerms := by rw [finished, hframe]
  have hnames : (finished tokens toJson mimetype r).fileNameTerms = r.doc.fileNameTerms := by rw [finished, hframe]
  have hsort : ∀ a b c d e : Prop, (a ∨ b ∨ c) ∨ d ∨ e ↔ ((a ∨ d ∨ e) ∨ c) ∨ b := by
    intro a b c d e
    simp only [or_comm, or_left_comm]
  rw [hexists, Elsewhere, hexists, hterms, hxattrs, hnames, hsort]

/-- The terms of values that are strings. -/
theorem mem_terms_strings (hvalues : r.map.values p = (strings.map QVariant.string).reverse) (term : Term) :
    propertyPrefix p ++ term ∈ propertyTerms tokens.termList r.map ↔
      ∃ s ∈ strings, s ≠ [] ∧ term ∈ tokens.termList s := by
  have hmem : ∀ v, (p, v) ∈ r.map ↔ ∃ s ∈ strings, QVariant.string s = v := by
    intro v
    rw [← PropertyMultiMap.mem_values, hvalues, List.mem_reverse, List.mem_map]
  rw [mem_propertyTerms]
  constructor
  · rintro ⟨v, hv, hterm⟩
    obtain ⟨s, hs, rfl⟩ := (hmem v).mp hv
    refine ⟨s, hs, ?_⟩
    rw [QVariant.terms, QVariant.text] at hterm
    · split at hterm
      · cases hterm
      · next hne =>
        obtain ⟨term', hterm', heq⟩ := List.mem_map.mp hterm
        rw [List.append_cancel_left_eq] at heq
        exact ⟨hne, heq ▸ hterm'⟩
    all_goals nofun
  · rintro ⟨s, hs, hne, hterm⟩
    refine ⟨.string s, (hmem _).mpr ⟨s, hs, rfl⟩, ?_⟩
    rw [QVariant.terms, QVariant.text, if_neg hne]
    · exact List.mem_map_of_mem hterm
    all_goals nofun

/-- The text that the lookup reads: there is one if there is one value. -/
def soleText : List (List QChar) → List QChar
  | [s] => s
  | _ => []

theorem storedText_eq (hsorted : r.map.Sorted) (hvalues : r.map.values p = (strings.map QVariant.string).reverse)
    (hstores : Stores db (finished tokens toJson mimetype r))
    (hreads : ReadsBack toJson jsonString (Result.json mimetype r.map)) :
    storedText jsonString db (keyString p) (finished tokens toJson mimetype r).id = soleText strings := by
  have hdata : (finished tokens toJson mimetype r).data = toJson (Result.json mimetype r.map) := by
    obtain ⟨terms, hframe⟩ := finish_frame tokens (fun map => toJson (Result.json mimetype map)) r
    rw [finished, hframe]
  have hget := @get_json p r.map hsorted mimetype
  rw [hvalues] at hget
  rw [storedText, DocumentDataDB.get, hstores.data, hdata, Option.getD_some, if_neg hreads.ne_nil]
  rcases strings with _ | ⟨s, _ | ⟨s', strings⟩⟩
  · exact hreads.missing _ hget
  · exact hreads.string _ s hget
  · -- the last value is first
    obtain ⟨first, rest, hrest⟩ : ∃ first rest, ((s :: s' :: strings).map QVariant.string).reverse = first :: rest :=
      List.exists_cons_of_ne_nil (by simp)
    have hlen := congrArg List.length hrest
    have hne : rest ≠ [] := by
      rintro rfl
      simp at hlen
    rw [hrest, valuesToJson, rangeToJson, if_pos hne] at hget
    exact hreads.array _ _ hget

/-- What the lookup asks of the text. -/
theorem soleText_matches {q : TextQuery} (hne : q.terms ≠ []) :
    (soleText strings ≠ [] ∧ q.matches tokens.termList (soleText strings) = true) ↔
      ∃ s, s ≠ [] ∧ strings = [s] ∧ q.terms <:+: tokens.termList s := by
  rw [matches_iff hne]
  constructor
  · rintro ⟨htext, hinfix⟩
    rcases strings with _ | ⟨s, _ | ⟨s', strings⟩⟩
    · exact absurd rfl htext
    · exact ⟨s, htext, rfl, hinfix⟩
    · exact absurd rfl htext
  · rintro ⟨s, hs, rfl, hinfix⟩
    exact ⟨hs, hinfix⟩

/-- The lookup yields the document if it has all terms and, where there are several, the terms side by side in
the only value. -/
theorem yields_property (hq : q.property = number p) (hkey : decodeKey (number p) = keyString p) (hne : q.terms ≠ [])
    (hexpand : q.expandLast = false) (hr : r = ({ doc := doc, text := text } : Result).addAll adds)
    (hstrings : addedValues p adds = strings.map QVariant.string) (hlisted : db.postingDb.Listed)
    (hstores : Stores db (finished tokens toJson mimetype r))
    (hreads : ReadsBack toJson jsonString (Result.json mimetype r.map)) :
    (Transaction.propertyIterator tokens.termList jsonString decodeKey db q).Yields doc.id ↔
      (∀ term ∈ q.terms, Elsewhere tokens doc text (propertyPrefix p ++ term) ∨
        ∃ s ∈ strings, s ≠ [] ∧ term ∈ tokens.termList s) ∧
      (2 ≤ q.terms.length → ∃ s, s ≠ [] ∧ strings = [s] ∧ q.terms <:+: tokens.termList s) := by
  have hempty : PropertyMultiMap.Sorted ({ doc := doc, text := text } : Result).map := List.Pairwise.nil
  obtain ⟨hsorted, hvalues⟩ := @Result.addAll_spec p _ hempty adds
  obtain ⟨hdoc, htext⟩ := Result.addAll_frame { doc := doc, text := text } adds
  rw [← hr] at hsorted hvalues hdoc htext
  have hnil : PropertyMultiMap.values p ({ doc := doc, text := text } : Result).map = [] := rfl
  rw [hstrings, hnil, List.append_nil] at hvalues
  have hid : (finished tokens toJson mimetype r).id = doc.id := by
    obtain ⟨terms, hframe⟩ := finish_frame tokens (fun map => toJson (Result.json mimetype map)) r
    rw [finished, hframe, hdoc]
  have hposted : ∀ term, doc.id ∈ db.postingDb.get (propertyPrefix p ++ term) ↔
      Elsewhere tokens doc text (propertyPrefix p ++ term) ∨ ∃ s ∈ strings, s ≠ [] ∧ term ∈ tokens.termList s := by
    intro term
    rw [← hid, hstores.posted, exists_family_finished, hdoc, htext, mem_terms_strings hvalues]
  have htype := storedText_eq hsorted hvalues hstores hreads
  rw [hid] at htype
  obtain ⟨hproper, hids⟩ := @ids_matching db.postingDb (88 :: q.property ++ [45]) q.toTextQuery (fun id =>
    storedText jsonString db (decodeKey q.property) id ≠ [] ∧
      q.matches tokens.termList (storedText jsonString db (decodeKey q.property) id)) hlisted hne hexpand
  have hpre : 88 :: number p ++ [45] = propertyPrefix p := rfl
  rw [Transaction.propertyIterator]
  refine (hproper.yields_iff doc.id).trans ?_
  rw [hids, Set.mem_ofPred_eq, hq, hkey, hpre, htype, decide_eq_true_iff, soleText_matches hne]
  simp only [hposted]

/-- The document is found when it should be, and only then: a term comes from no other source, and is not one of
the empty string; several terms are asked of a property that has one value, which is not empty. -/
def FoundRightly (tokens : Tokenizer) (doc : Document) (text : List (List QChar)) (p : ℕ)
    (strings : List (List QChar)) : List Term → Prop
  | [term] =>
    (Elsewhere tokens doc text (propertyPrefix p ++ term) → ∃ s ∈ strings, term ∈ tokens.termList s) ∧
      ([] ∈ strings → term ∈ tokens.termList [] →
        Elsewhere tokens doc text (propertyPrefix p ++ term) ∨ ∃ s ∈ strings, s ≠ [] ∧ term ∈ tokens.termList s)
  | terms => (∃ s ∈ strings, terms <:+: tokens.termList s) → ∃ s, s ≠ [] ∧ strings = [s]

/-- **When a query for a property is right.** The lookup yields the document exactly if one of the values has
the terms of the query side by side, under the condition above and under no other. -/
theorem property_phrase_iff (hq : q.property = number p) (hkey : decodeKey (number p) = keyString p)
    (hne : q.terms ≠ []) (hexpand : q.expandLast = false) (hr : r = ({ doc := doc, text := text } : Result).addAll adds)
    (hstrings : addedValues p adds = strings.map QVariant.string) (hlisted : db.postingDb.Listed)
    (hstores : Stores db (finished tokens toJson mimetype r))
    (hreads : ReadsBack toJson jsonString (Result.json mimetype r.map)) :
    ((Transaction.propertyIterator tokens.termList jsonString decodeKey db q).Yields doc.id ↔
        ∃ s ∈ strings, q.terms <:+: tokens.termList s) ↔ FoundRightly tokens doc text p strings q.terms := by
  rw [yields_property hq hkey hne hexpand hr hstrings hlisted hstores hreads]
  generalize q.terms = terms at hne
  rcases terms with _ | ⟨term, _ | ⟨second, rest⟩⟩
  · exact absurd rfl hne
  · -- one term
    have hvalue : (∃ s ∈ strings, term ∈ tokens.termList s) ↔
        (∃ s ∈ strings, s ≠ [] ∧ term ∈ tokens.termList s) ∨ [] ∈ strings ∧ term ∈ tokens.termList [] := by
      constructor
      · rintro ⟨s, hs, hterm⟩
        by_cases hnil : s = []
        · exact .inr ⟨hnil ▸ hs, hnil ▸ hterm⟩
        · exact .inl ⟨s, hs, hnil, hterm⟩
      · rintro (⟨s, hs, -, hterm⟩ | ⟨hs, hterm⟩)
        · exact ⟨s, hs, hterm⟩
        · exact ⟨[], hs, hterm⟩
    have hlen : ¬2 ≤ [term].length := by simp
    have hsort : ∀ e v m t : Prop, ((e ∨ v) ↔ (v ∨ m ∧ t)) ↔ (e → v ∨ m ∧ t) ∧ (m → t → e ∨ v) := by grind
    simp only [List.singleton_infix_iff, List.mem_singleton, forall_eq, hlen, false_imp_iff, and_true, FoundRightly]
    rw [hvalue]
    exact hsort _ _ _ _
  · -- several terms: a text that has them side by side has each of them
    have hall : (∃ s, s ≠ [] ∧ strings = [s] ∧ term :: second :: rest <:+: tokens.termList s) →
        ∀ t ∈ term :: second :: rest, Elsewhere tokens doc text (propertyPrefix p ++ t) ∨
          ∃ s ∈ strings, s ≠ [] ∧ t ∈ tokens.termList s := by
      rintro ⟨s, hs, rfl, hinfix⟩ t ht
      exact .inr ⟨s, List.mem_singleton_self s, hs, hinfix.subset ht⟩
    have hlen : 2 ≤ (term :: second :: rest).length := by simp
    rw [FoundRightly, imp_iff_right hlen, and_iff_right_of_imp hall]
    constructor
    · intro hiff hsome
      obtain ⟨s, hs, hsole, -⟩ := hiff.mpr hsome
      exact ⟨s, hs, hsole⟩
    · intro hsole
      constructor
      · rintro ⟨s, -, rfl, hinfix⟩
        exact ⟨s, List.mem_singleton_self s, hinfix⟩
      · intro hsome
        obtain ⟨s, hs, rfl⟩ := hsole hsome
        obtain ⟨s', hs', hinfix⟩ := hsome
        obtain rfl := List.mem_singleton.mp hs'
        exact ⟨s', hs, rfl, hinfix⟩
    · nofun

end Phrase

/-! ## A file with two artists -/

/-- The words of a text. -/
def spaceWords : Tokenizer where
  termList text := (words text).filter (· ≠ [])
  ne_nil text h := by simp at h

/-- What an extractor says about the file `/a`: its artists. -/
def artists (strings : List (List QChar)) : Result :=
  ({ doc := { id := 2, parentId := 1, url := [47, 97] }, text := [] } : Result).addAll [(9, .stringList strings)]

/-- JSON with one artist or with `x y` and `z`. -/
def artistsJson (object : QJsonObject) : QByteArray :=
  match object.get (keyString 9) with
  | some (.variant (.string s)) => ascii ['\x7b', '"', '9', '"', ':', '"'] ++ s.map (fun c => UInt8.ofNat c.toNat) ++
    ascii ['"', ',', '"', 'M', '"', ':', '"', '"', '\x7d']
  | _ => ascii "\x7b\"9\":[\"x y\",\"z\"],\"M\":\"\"\x7d".toList

/-- The artist, if there is one. -/
def artistsString (data : QByteArray) (key : List QChar) : List QChar :=
  if key = keyString 9 ∧ data[5]? = some 34 then
    ((data.drop 6).takeWhile fun b => b ≠ 34).map fun b => UInt16.ofNat b.toNat
  else []

/-- The document. -/
def artistsDocument (strings : List (List QChar)) : Document := finished spaceWords artistsJson [] (artists strings)

/-- The transaction that adds it. -/
def addingArtists (strings : List (List QChar)) : WriteTransaction :=
  ({} : WriteTransaction).addDocument noFiles (artistsDocument strings)

/-- The database. -/
def artistsDb (strings : List (List QChar)) : Database :=
  (addingArtists strings).commit (addingArtists strings).pendingOperations.keys

/-- What has been written. -/
def artistsIndex (strings : List (List QChar)) : Index :=
  Index.keep (Index.replace (fun _ _ => ∅) (artistsDocument strings) fun _ => true) (addingArtists strings).dbis

/-- The document can be added. -/
structure Addable (strings : List (List QChar)) : Prop where
  id : (artistsDocument strings).id = 2
  wellFormed : (artistsDocument strings).WellFormed
  ne_nil : (artistsDocument strings).terms.keys ≠ []
  apart : Apart (artistsDocument strings).family
  stored : (addingArtists strings).dbis.docTermsDb.contains 2 = true
  data : OrdMap.get (artistsDb strings).docDataDb 2 = some (artistsDocument strings).data

theorem Addable.committed {strings : List (List QChar)} (h : Addable strings) :
    Committed KeepsApart (artistsDb strings) (artistsIndex strings) := by
  have hreplace : Index.replace (fun _ _ => ∅) (artistsDocument strings) (fun _ => true) (artistsDocument strings).id =
      (artistsDocument strings).family := by
    funext f
    simp [Index.replace]
  have hadd : Step KeepsApart ({}, fun _ _ => ∅) (addingArtists strings, artistsIndex strings) :=
    .addDocument noFiles (artistsDocument strings) rfl h.wellFormed h.ne_nil
      ⟨hreplace ▸ h.apart, fun t f g _ _ _ ht => by simp at ht⟩
  exact .transaction .empty (.single hadd) (List.Perm.refl _)

theorem Addable.stores {strings : List (List QChar)} (h : Addable strings) :
    Stores (artistsDb strings) (artistsDocument strings) := by
  refine h.committed.stores ?_ (h.id ▸ h.data)
  funext f
  rw [h.id, artistsIndex, Index.keep, if_pos h.stored]
  exact if_pos ⟨h.id.symm, rfl⟩

theorem Addable.listed {strings : List (List QChar)} (h : Addable strings) : (artistsDb strings).postingDb.Listed := by
  refine h.committed.listed ?_
  have hne : 0 ≠ (artistsDocument strings).id := by
    rw [h.id]
    decide
  funext f
  simp [artistsIndex, Index.keep, Index.replace, hne]

/-- One artist, `x y`. -/
theorem addable_one : Addable [[120, 32, 121]] :=
  ⟨by decide, by decide, by decide, by decide, by decide, by decide⟩

/-- Two artists, `x y` and `z`. -/
theorem addable_two : Addable [[120, 32, 121], [122]] :=
  ⟨by decide, by decide, by decide, by decide, by decide, by decide⟩

/-- The artist `x y`. -/
def artistQuery : PropertyPhraseQuery := { terms := [[120], [121]], expandLast := false, property := number 9 }

/-- The lookup for the artist `x y`. -/
def artistTree (strings : List (List QChar)) : PostingTree :=
  Transaction.propertyIterator spaceWords.termList artistsString (fun key => key.map fun b => UInt16.ofNat b.toNat)
    (artistsDb strings) artistQuery

theorem readsBack_one : ReadsBack artistsJson artistsString (Result.json [] (artists [[120, 32, 121]]).map) := by
  have hget : ∀ key, (Result.json [] (artists [[120, 32, 121]]).map).get key =
      if key = Transaction.mimetypeKey then some (.variant (.string []))
      else if key = keyString 9 then some (.variant (.string [120, 32, 121])) else none := fun key =>
    (OrdMap.get_put ..).trans (congrArg _ (OrdMap.get_put ..))
  refine ⟨by decide, fun key s hs => ?_, fun key values hvalues => ?_, fun key hnone => ?_⟩
  · rw [hget] at hs
    split at hs
    · next hkey =>
      obtain rfl := hkey
      obtain rfl : [] = s := by simpa using hs
      decide
    · split at hs
      · next hkey =>
        obtain rfl := hkey
        obtain rfl : [120, 32, 121] = s := by simpa using hs
        decide
      · cases hs
  · rw [hget] at hvalues
    split at hvalues
    · cases hvalues
    · split at hvalues <;> cases hvalues
  · rw [hget] at hnone
    split at hnone
    · cases hnone
    · split at hnone
      · cases hnone
      · next hkey =>
        rw [artistsString, if_neg fun h => hkey h.1]

theorem readsBack_two : ReadsBack artistsJson artistsString (Result.json [] (artists [[120, 32, 121], [122]]).map) := by
  have hread : ∀ key, artistsString (artistsJson (Result.json [] (artists [[120, 32, 121], [122]]).map)) key = [] := by
    intro key
    have hbyte : ¬(artistsJson (Result.json [] (artists [[120, 32, 121], [122]]).map))[5]? = some 34 := by decide
    rw [artistsString, if_neg fun h => hbyte h.2]
  refine ⟨by decide, fun key s hs => ?_, fun key _ _ => hread key, fun key _ => hread key⟩
  have hget : (Result.json [] (artists [[120, 32, 121], [122]]).map).get key =
      if key = Transaction.mimetypeKey then some (.variant (.string []))
      else if key = keyString 9 then some (.array [.string [120, 32, 121], .string [122]]) else none :=
    (OrdMap.get_put ..).trans (congrArg _ (OrdMap.get_put ..))
  rw [hget] at hs
  split at hs
  · obtain rfl : [] = s := by simpa using hs
    exact hread key
  · split at hs <;> cases hs

/-- The file is found by its only artist. -/
theorem property_phrase_iff_one : (artistTree [[120, 32, 121]]).Yields 2 ↔
    ∃ s ∈ [[120, 32, 121]], [[120], [121]] <:+: spaceWords.termList s := by
  have hright : FoundRightly spaceWords (artists []).doc [] 9 [[120, 32, 121]] artistQuery.terms :=
    fun _ => ⟨[120, 32, 121], by simp, rfl⟩
  exact (property_phrase_iff rfl (by decide) (by simp [artistQuery]) rfl rfl rfl addable_one.listed
    addable_one.stores readsBack_one).mpr hright

/-- The file with two artists is not found. -/
theorem second_artist_missed : ¬((artistTree [[120, 32, 121], [122]]).Yields 2 ↔
    ∃ s ∈ [[120, 32, 121], [122]], [[120], [121]] <:+: spaceWords.termList s) := by
  intro hiff
  have hwords : [[120], [121]] <:+: spaceWords.termList [120, 32, 121] := ⟨[], [], by decide⟩
  have hyields := hiff.mpr ⟨_, List.mem_cons_self, hwords⟩
  have hstrings : addedValues 9 [(9, .stringList [[120, 32, 121], [122]])] =
      [[120, 32, 121], [122]].map QVariant.string := rfl
  obtain ⟨-, hsole⟩ := (yields_property rfl (by decide) (by simp [artistQuery]) rfl rfl hstrings addable_two.listed
    addable_two.stores readsBack_two).mp hyields
  obtain ⟨s, -, hs, -⟩ := hsole (by simp [artistQuery])
  cases hs

end Baloo
