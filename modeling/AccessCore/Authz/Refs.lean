/-
  Entity references, subjects, relation tuples and the tuple index
  (`authz/domain/entity-ref.ts`, `subject-ref.ts`, `relation-tuple.ts`, `tuple-index.ts`).

  The program keys its maps and sets by text: `type:id#relation` names a node of the relationship
  graph.  That text is read back nowhere, so two different nodes with one key would silently be
  the same node.  `nodeKey_inj` is what rules this out: a key determines its node as soon as one
  of the two sides is made of writable parts, whatever the other side is.  A resource taken from
  a request is not checked to be writable, so the lemma cannot ask it of both sides.

  A `RelationTuple` carries the proof that `write` accepted it, so every bucket of a
  `TupleIndex` is exactly the list of subjects of the tuples on that node (`subjectsOf_eq`).
-/
import AccessCore.Lib.OrderedMap

namespace AccessCore

/-- A sequence of checks succeeds only when each of them does. -/
theorem bind_eq_ok {ε α β : Type} {x : Except ε α} {f : α → Except ε β} {b : β}
    (h : x >>= f = .ok b) : ∃ a, x = .ok a ∧ f a = .ok b := by
  cases x with
  | error e => simp [bind, Except.bind] at h
  | ok a => exact ⟨a, rfl, h⟩

theorem map_eq_ok {ε α β : Type} {x : Except ε α} {f : α → β} {b : β}
    (h : x.map f = .ok b) : ∃ a, x = .ok a ∧ f a = b := by
  cases x with
  | error e => cases h
  | ok a => exact ⟨a, rfl, Except.ok.inj h⟩

/-- A guard: the error when the condition holds. -/
def failIf {ε : Type} (condition : Bool) (error : ε) : Except ε Unit :=
  if condition then .error error else .ok ()

theorem failIf_ok {ε : Type} {condition : Bool} {error : ε} {u : Unit}
    (h : failIf condition error = .ok u) : condition = false := by
  cases condition with
  | false => rfl
  | true => simp [failIf] at h

/-! ## Identifiers and references -/

/-- `IDENTIFIER.test(value)`: a letter, then letters, digits, `_` or `-`. -/
def isIdentifier (value : String) : Bool :=
  match value.toList with
  | [] => false
  | c :: cs => c.isAlpha && cs.all fun c => c.isAlphanum || c == '_' || c == '-'

structure EntityRef where
  type : String
  id : String
deriving DecidableEq, Repr

/-- `RESERVED_ID_CHARS`. -/
def isReservedIdChar (c : Char) : Bool := c == ':' || c == '#' || c == '@'

def assertWritableEntityRef (ref : EntityRef) : Except String Unit :=
  if !isIdentifier ref.type then .error ("invalid entity type: " ++ ref.type)
  else if ref.id.toList.isEmpty || ref.id.toList.any isReservedIdChar then
    .error ("invalid entity id: " ++ ref.id)
  else .ok ()

def formatEntityRef (ref : EntityRef) : String := ref.type ++ ":" ++ ref.id

/-- What a tuple can relate to an object: an entity, or every member of a set. -/
inductive SubjectRef where
  | subject (ref : EntityRef)
  | userset (ref : EntityRef) (relation : String)
deriving DecidableEq, Repr

def SubjectRef.ref : SubjectRef → EntityRef
  | .subject ref => ref
  | .userset ref _ => ref

def assertWritableSubject (subject : SubjectRef) : Except String Unit := do
  assertWritableEntityRef subject.ref
  match subject with
  | .subject _ => pure ()
  | .userset _ relation =>
    failIf (!isIdentifier relation) ("invalid userset relation: " ++ relation)

def encodeSubject : SubjectRef → String
  | .subject ref => formatEntityRef ref
  | .userset ref relation => formatEntityRef ref ++ "#" ++ relation

/-- The key of a node of the relationship graph. -/
def nodeKey (object : EntityRef) (relation : String) : String :=
  formatEntityRef object ++ "#" ++ relation

def tupleKey (object : EntityRef) (relation : String) (subject : SubjectRef) : String :=
  nodeKey object relation ++ "@" ++ encodeSubject subject

/-! ## Reading references back -/

/-- The text before and after the first `c`. -/
def splitAtFirst (c : Char) (text : List Char) : Option (List Char × List Char) :=
  if c ∈ text then some (text.takeWhile (· ≠ c), (text.dropWhile (· ≠ c)).tail) else none

def parseEntityRef (value : String) : Except String EntityRef :=
  match splitAtFirst ':' value.toList with
  | some (type, id) =>
    if type.isEmpty || id.isEmpty then .error ("invalid entity reference: " ++ value)
    else .ok ⟨String.ofList type, String.ofList id⟩
  | none => .error ("invalid entity reference: " ++ value)

def parseSubject (value : String) : Except String SubjectRef :=
  match splitAtFirst '#' value.toList with
  | none => (parseEntityRef value).map .subject
  | some (ref, relation) =>
    if relation.isEmpty || '#' ∈ relation then .error ("invalid userset subject: " ++ value)
    else (parseEntityRef (String.ofList ref)).map fun r => .userset r (String.ofList relation)

theorem splitAtFirst_append {c : Char} {before after : List Char} (h : c ∉ before) :
    splitAtFirst c (before ++ c :: after) = some (before, after) := by
  have hne : ∀ x ∈ before, decide (x ≠ c) = true :=
    fun x hx => by simpa using fun hxc : x = c => h (hxc ▸ hx)
  unfold splitAtFirst
  rw [if_pos (by simp), List.takeWhile_append_of_pos hne, List.dropWhile_append_of_pos hne]
  simp

theorem splitAtFirst_none {c : Char} {text : List Char} (h : c ∉ text) :
    splitAtFirst c text = none := by
  unfold splitAtFirst
  rw [if_neg h]

/-! ## Keys determine nodes -/

/-- The node parts a stored tuple can have: a writable object and an identifier. -/
def WritableNode (object : EntityRef) (relation : String) : Prop :=
  assertWritableEntityRef object = .ok () ∧ isIdentifier relation = true

/-- An identifier is of letters, digits, `_` and `-`. -/
theorem identifier_notMem {value : String} (h : isIdentifier value = true) {c : Char}
    (halnum : c.isAlphanum = false) (hunderscore : c ≠ '_') (hdash : c ≠ '-') :
    c ∉ value.toList := by
  intro hc
  unfold isIdentifier at h
  split at h
  · simp at h
  · rename_i first rest heq
    simp only [Bool.and_eq_true, List.all_eq_true, Bool.or_eq_true, beq_iff_eq] at h
    rw [heq] at hc
    rcases List.mem_cons.mp hc with rfl | hc
    · rw [Char.isAlphanum, h.1, Bool.true_or] at halnum
      cases halnum
    · rcases h.2 c hc with (halnum' | hchar) | hchar
      · cases halnum'.symm.trans halnum
      · exact hunderscore hchar
      · exact hdash hchar

theorem identifier_chars {value : String} (h : isIdentifier value = true) :
    ∀ c ∈ value.toList, c ≠ ':' ∧ c ≠ '#' := by
  intro c hc
  constructor
  · rintro rfl
    exact identifier_notMem h (by decide) (by decide) (by decide) hc
  · rintro rfl
    exact identifier_notMem h (by decide) (by decide) (by decide) hc

theorem writableRef_iff {ref : EntityRef} : assertWritableEntityRef ref = .ok () ↔
    isIdentifier ref.type = true ∧ ref.id.toList ≠ [] ∧
      ∀ c ∈ ref.id.toList, isReservedIdChar c = false := by
  unfold assertWritableEntityRef
  by_cases ht : isIdentifier ref.type = true
  · by_cases hi : (ref.id.toList.isEmpty || ref.id.toList.any isReservedIdChar) = true
    · simp only [ht, hi, Bool.not_true, Bool.false_eq_true, if_false, if_true, reduceCtorEq,
        true_and, false_iff, not_and]
      intro hne hall
      rcases Bool.or_eq_true .. |>.mp hi with he | he
      · exact hne (List.isEmpty_iff.mp he)
      · obtain ⟨c, hc, hr⟩ := List.any_eq_true.mp he
        simp [hall c hc] at hr
    · have hi' : ref.id.toList ≠ [] ∧ ∀ c ∈ ref.id.toList, isReservedIdChar c = false := by
        simpa only [Bool.or_eq_true, not_or, List.isEmpty_iff, Bool.not_eq_true,
          List.any_eq_false] using hi
      simp only [ht, hi, Bool.not_true, Bool.false_eq_true, if_false, true_and, true_iff]
      exact hi'
  · simp [ht]

instance (ref : EntityRef) : Decidable (assertWritableEntityRef ref = .ok ()) :=
  match assertWritableEntityRef ref with
  | .ok () => isTrue rfl
  | .error _ => isFalse nofun

instance (object : EntityRef) (relation : String) : Decidable (WritableNode object relation) :=
  inferInstanceAs (Decidable (_ ∧ _))

theorem writableRef_type {ref : EntityRef} (h : assertWritableEntityRef ref = .ok ()) :
    isIdentifier ref.type = true :=
  (writableRef_iff.mp h).1

theorem writableRef_id {ref : EntityRef} (h : assertWritableEntityRef ref = .ok ()) :
    ∀ c ∈ ref.id.toList, c ≠ ':' ∧ c ≠ '#' := by
  intro c hc
  have := (writableRef_iff.mp h).2.2 c hc
  constructor <;> (rintro rfl; simp [isReservedIdChar] at this)

/-- A list is split at the only occurrence of a separator in one way. -/
theorem split_unique {α : Type} {x : α} {a b a' b' : List α} (ha : x ∉ a) (hb : x ∉ b)
    (h : a ++ x :: b = a' ++ x :: b') : a = a' ∧ b = b' := by
  rcases List.append_eq_append_iff.mp h with ⟨c, rfl, hc⟩ | ⟨c, rfl, hc⟩
  · cases c with
    | nil => simpa using hc
    | cons y ys =>
      obtain ⟨rfl, rfl⟩ : x = y ∧ b = ys ++ x :: b' := by simpa using hc
      exact absurd (by simp) hb
  · cases c with
    | nil => simpa [eq_comm] using hc
    | cons y ys => exact absurd (by simp at hc; simp [hc.1]) ha

theorem formatEntityRef_toList (ref : EntityRef) :
    (formatEntityRef ref).toList = ref.type.toList ++ ':' :: ref.id.toList := by
  simp [formatEntityRef]

theorem nodeKey_toList (object : EntityRef) (relation : String) :
    (nodeKey object relation).toList =
      (formatEntityRef object).toList ++ '#' :: relation.toList := by
  simp [nodeKey]

theorem hash_notMem_format {ref : EntityRef} (h : assertWritableEntityRef ref = .ok ()) :
    '#' ∉ (formatEntityRef ref).toList := by
  rw [formatEntityRef_toList]
  simp only [List.mem_append, List.mem_cons, not_or]
  exact ⟨fun hm => (identifier_chars (writableRef_type h) _ hm).2 rfl, by decide,
    fun hm => (writableRef_id h _ hm).2 rfl⟩

/-- The text of a writable reference determines it, whatever the other reference is. -/
theorem formatEntityRef_inj {a b : EntityRef} (ha : assertWritableEntityRef a = .ok ())
    (h : formatEntityRef a = formatEntityRef b) : a = b := by
  have hl := congrArg String.toList h
  rw [formatEntityRef_toList, formatEntityRef_toList] at hl
  obtain ⟨ht, hi⟩ := split_unique
    (fun hm => (identifier_chars (writableRef_type ha) _ hm).1 rfl)
    (fun hm => (writableRef_id ha _ hm).1 rfl) hl
  cases a; cases b
  simp_all [String.toList_inj]

/-- **Node keys are faithful.**  A key determines its node when one side has writable parts. -/
theorem nodeKey_inj {o o' : EntityRef} {r r' : String} (hw : WritableNode o r)
    (h : nodeKey o r = nodeKey o' r') : o = o' ∧ r = r' := by
  have hl := congrArg String.toList h
  rw [nodeKey_toList, nodeKey_toList] at hl
  obtain ⟨ho, hr⟩ := split_unique (hash_notMem_format hw.1)
    (fun hm => (identifier_chars hw.2 _ hm).2 rfl) hl
  exact ⟨formatEntityRef_inj hw.1 (String.toList_inj.mp ho), String.toList_inj.mp hr⟩

/-- Two relations of one object have different keys. -/
theorem nodeKey_relation_inj {o : EntityRef} {r r' : String}
    (h : nodeKey o r = nodeKey o r') : r = r' := by
  have hl := congrArg String.toList h
  rw [nodeKey_toList, nodeKey_toList] at hl
  exact String.toList_inj.mp (by simpa using hl)

/-! ## Subjects are read back as they were written -/

theorem identifier_ne_nil {value : String} (h : isIdentifier value = true) : value.toList ≠ [] := by
  intro hnil
  simp [isIdentifier, hnil] at h

theorem parseEntityRef_format {ref : EntityRef} (h : assertWritableEntityRef ref = .ok ()) :
    parseEntityRef (formatEntityRef ref) = .ok ref := by
  have hcolon : ':' ∉ ref.type.toList :=
    fun hm => (identifier_chars (writableRef_type h) _ hm).1 rfl
  have htype : ref.type.toList ≠ [] := identifier_ne_nil (writableRef_type h)
  have hid : ref.id.toList ≠ [] := (writableRef_iff.mp h).2.1
  unfold parseEntityRef
  rw [formatEntityRef_toList, splitAtFirst_append hcolon]
  simp [htype, hid]

/-- A writable subject is read back from its column as it was written. -/
theorem parseSubject_encodeSubject {subject : SubjectRef}
    (h : assertWritableSubject subject = .ok ()) :
    parseSubject (encodeSubject subject) = .ok subject := by
  obtain ⟨_, href, hrest⟩ := bind_eq_ok h
  cases subject with
  | subject ref =>
    have hno : '#' ∉ (formatEntityRef ref).toList := hash_notMem_format href
    have hparse : parseEntityRef (formatEntityRef ref) = .ok ref := parseEntityRef_format href
    simp only [parseSubject, encodeSubject, splitAtFirst_none hno, hparse]
    rfl
  | userset ref relation =>
    have hrel : isIdentifier relation = true := by simpa using failIf_ok hrest
    have hne : relation.toList ≠ [] := identifier_ne_nil hrel
    have hno : '#' ∉ relation.toList := fun hm => (identifier_chars hrel _ hm).2 rfl
    have hhash : '#' ∉ (formatEntityRef ref).toList := hash_notMem_format href
    have hparse : parseEntityRef (formatEntityRef ref) = .ok ref := parseEntityRef_format href
    have htext : (encodeSubject (.userset ref relation)).toList =
        (formatEntityRef ref).toList ++ '#' :: relation.toList := by simp [encodeSubject]
    unfold parseSubject
    rw [htext, splitAtFirst_append hhash]
    simp [hne, hno, hparse, Except.map]

/-- The first `c` ends what is before it. -/
theorem splitAtFirst_eq_some {c : Char} {text before after : List Char}
    (h : splitAtFirst c text = some (before, after)) : text = before ++ c :: after := by
  have hmem : c ∈ text := by
    by_contra hnot
    rw [splitAtFirst_none hnot] at h
    cases h
  obtain ⟨start, rest, rfl, hstart⟩ := List.eq_append_cons_of_mem hmem
  rw [splitAtFirst_append hstart] at h
  obtain ⟨rfl, rfl⟩ := Prod.mk.inj (Option.some.inj h)
  rfl

/-- A reference is read back as its text. -/
theorem formatEntityRef_parse {value : String} {ref : EntityRef}
    (h : parseEntityRef value = .ok ref) : formatEntityRef ref = value := by
  unfold parseEntityRef at h
  split at h
  · next type id hsplit =>
    split_ifs at h
    obtain rfl := Except.ok.inj h
    apply String.toList_inj.mp
    rw [formatEntityRef_toList, splitAtFirst_eq_some hsplit, String.toList_ofList,
      String.toList_ofList]
  · cases h

/-- A subject is written as the text it was read from. -/
theorem encodeSubject_parseSubject {value : String} {subject : SubjectRef}
    (h : parseSubject value = .ok subject) : encodeSubject subject = value := by
  unfold parseSubject at h
  split at h
  · next hnone =>
    obtain ⟨ref, href, rfl⟩ := map_eq_ok h
    exact formatEntityRef_parse href
  · next refText relation hsplit =>
    split_ifs at h
    obtain ⟨ref, href, rfl⟩ := map_eq_ok h
    apply String.toList_inj.mp
    have hformat := formatEntityRef_parse href
    have htext : (encodeSubject (.userset ref (String.ofList relation))).toList =
        (formatEntityRef ref).toList ++ '#' :: relation := by simp [encodeSubject]
    rw [htext, hformat, String.toList_ofList, splitAtFirst_eq_some hsplit]

/-! ## Relation tuples -/

/-- An organization id.  The columns that hold it are of type `uuid`, so a text with a `:` in it
    is not one. -/
structure OrgId where
  value : String
  uuid : ':' ∉ value.toList
deriving DecidableEq

theorem colon_notMem_acme : ':' ∉ "acme".toList := by decide

/-- The organizations of the examples. -/
def acme : OrgId := ⟨"acme", colon_notMem_acme⟩
def globex : OrgId := ⟨"globex", by decide⟩

/-- A revision of the store. -/
structure Revision where
  value : Nat
deriving DecidableEq, Repr

def Revision.isAtLeast (r other : Revision) : Bool := decide (other.value ≤ r.value)

/-- The three checks of `RelationTuple.write`, in its order. -/
def assertWritableTuple (object : EntityRef) (relation : String) (subject : SubjectRef) :
    Except String Unit := do
  assertWritableEntityRef object
  failIf (!isIdentifier relation) ("invalid relation: " ++ relation)
  assertWritableSubject subject

/-- A relation tuple.  The last field is the proof that `write` accepted it: no other tuple is
    ever stored. -/
structure RelationTuple where
  orgId : OrgId
  object : EntityRef
  relation : String
  subject : SubjectRef
  revision : Revision
  createdAt : Int
  written : assertWritableTuple object relation subject = .ok ()
deriving DecidableEq

/-- `RelationTuple.write`. -/
def RelationTuple.write (orgId : OrgId) (object : EntityRef) (relation : String)
    (subject : SubjectRef) (revision : Revision) (createdAt : Int) :
    Except String RelationTuple :=
  match h : assertWritableTuple object relation subject with
  | .ok () => .ok ⟨orgId, object, relation, subject, revision, createdAt, h⟩
  | .error message => .error message

theorem RelationTuple.write_ok {orgId : OrgId} {object : EntityRef} {relation : String}
    {subject : SubjectRef} {revision : Revision} {createdAt : Int} {tuple : RelationTuple}
    (h : write orgId object relation subject revision createdAt = .ok tuple) :
    tuple.orgId = orgId ∧ tuple.object = object ∧ tuple.relation = relation ∧
      tuple.subject = subject ∧ tuple.revision = revision := by
  unfold write at h
  split at h
  · obtain rfl := Except.ok.inj h
    exact ⟨rfl, rfl, rfl, rfl, rfl⟩
  · cases h

/-- `RelationTuple.key`. -/
def RelationTuple.key (tuple : RelationTuple) : String :=
  tupleKey tuple.object tuple.relation tuple.subject

theorem writableTuple_iff {object : EntityRef} {relation : String} {subject : SubjectRef} :
    assertWritableTuple object relation subject = .ok () ↔
      WritableNode object relation ∧ assertWritableSubject subject = .ok () := by
  constructor
  · intro h
    obtain ⟨_, ho, h⟩ := bind_eq_ok h
    obtain ⟨_, hr, h⟩ := bind_eq_ok h
    exact ⟨⟨ho, by simpa using failIf_ok hr⟩, h⟩
  · rintro ⟨⟨ho, hr⟩, hs⟩
    simp [assertWritableTuple, ho, hr, hs, failIf, bind, Except.bind]

theorem RelationTuple.writableNode (tuple : RelationTuple) :
    WritableNode tuple.object tuple.relation :=
  (writableTuple_iff.mp tuple.written).1

theorem RelationTuple.writableSubject (tuple : RelationTuple) :
    assertWritableSubject tuple.subject = .ok () :=
  (writableTuple_iff.mp tuple.written).2

theorem writableSubject_ref {subject : SubjectRef} (h : assertWritableSubject subject = .ok ()) :
    assertWritableEntityRef subject.ref = .ok () := by
  obtain ⟨_, href, _⟩ := bind_eq_ok h
  exact href

/-- The node a userset subject refers to is writable. -/
theorem writableSubject_node {ref : EntityRef} {relation : String}
    (h : assertWritableSubject (.userset ref relation) = .ok ()) : WritableNode ref relation := by
  obtain ⟨_, href, hrel⟩ := bind_eq_ok h
  exact ⟨href, by simpa using failIf_ok hrel⟩

/-- The key of a tuple tells its node, its relation and its subject. -/
theorem tupleKey_inj {object object' : EntityRef} {relation relation' : String}
    {subject subject' : SubjectRef} (h : assertWritableTuple object relation subject = .ok ())
    (h' : assertWritableTuple object' relation' subject' = .ok ())
    (hkey : tupleKey object relation subject = tupleKey object' relation' subject') :
    object = object' ∧ relation = relation' ∧ subject = subject' := by
  obtain ⟨⟨hobject, hrelation⟩, hsubject⟩ := writableTuple_iff.mp h
  obtain ⟨⟨hobject', hrelation'⟩, hsubject'⟩ := writableTuple_iff.mp h'
  have hchars : ∀ (o : EntityRef) (r : String) (s : SubjectRef), (tupleKey o r s).toList =
      (formatEntityRef o).toList ++ '#' :: (r.toList ++ '@' :: (encodeSubject s).toList) := by
    intro o r s
    simp [tupleKey, nodeKey]
  -- the first `#` ends the object, and after it the first `@` ends the relation
  have hsplit := congrArg (fun key : String => splitAtFirst '#' key.toList) hkey
  simp only [hchars, splitAtFirst_append (hash_notMem_format hobject),
    splitAtFirst_append (hash_notMem_format hobject')] at hsplit
  obtain ⟨hformat, hrest⟩ := Prod.mk.inj (Option.some.inj hsplit)
  have hat : ∀ {r : String}, isIdentifier r = true → '@' ∉ r.toList := fun hr =>
    identifier_notMem hr (by decide) (by decide) (by decide)
  have hsplit' := congrArg (splitAtFirst '@') hrest
  rw [splitAtFirst_append (hat hrelation), splitAtFirst_append (hat hrelation')] at hsplit'
  obtain ⟨hrel, hsub⟩ := Prod.mk.inj (Option.some.inj hsplit')
  refine ⟨formatEntityRef_inj hobject (String.toList_inj.mp hformat), String.toList_inj.mp hrel, ?_⟩
  have hencode : encodeSubject subject = encodeSubject subject' := String.toList_inj.mp hsub
  have hparse := parseSubject_encodeSubject hsubject
  rw [hencode, parseSubject_encodeSubject hsubject'] at hparse
  exact (Except.ok.inj hparse).symm

/-- **The texts are faithful.**  Subjects are read back as they were written and written as they
were read, a node key tells the node of a tuple, and the key of a tuple the tuple. -/
theorem texts_faithful :
    (∀ subject, assertWritableSubject subject = .ok () →
      parseSubject (encodeSubject subject) = .ok subject) ∧
    (∀ value subject, parseSubject value = .ok subject → encodeSubject subject = value) ∧
    ∀ (orgId orgId' : OrgId) (object object' : EntityRef) (relation relation' : String)
      (subject subject' : SubjectRef) (revision revision' : Revision) (createdAt createdAt' : Int)
      (tuple tuple' : RelationTuple),
      RelationTuple.write orgId object relation subject revision createdAt = .ok tuple →
      RelationTuple.write orgId' object' relation' subject' revision' createdAt' = .ok tuple' →
      (nodeKey object relation = nodeKey object' relation' →
        object = object' ∧ relation = relation') ∧
      (tuple.key = tuple'.key → object = object' ∧ relation = relation' ∧ subject = subject') := by
  refine ⟨fun subject => parseSubject_encodeSubject,
    fun value subject => encodeSubject_parseSubject, ?_⟩
  intro orgId orgId' object object' relation relation' subject subject' revision revision'
    createdAt createdAt' tuple tuple' hwrite hwrite'
  obtain ⟨-, rfl, rfl, rfl, -⟩ := RelationTuple.write_ok hwrite
  obtain ⟨-, rfl, rfl, rfl, -⟩ := RelationTuple.write_ok hwrite'
  constructor
  · exact nodeKey_inj tuple.writableNode
  · exact tupleKey_inj tuple.written tuple'.written

/-! ## The tuple index -/

/-- Put one subject into its bucket. -/
def TupleIndex.insert (map : OrderedMap String (List SubjectRef)) (tuple : RelationTuple) :
    OrderedMap String (List SubjectRef) :=
  let key := nodeKey tuple.object tuple.relation
  match OrderedMap.get? map key with
  | some bucket => OrderedMap.set map key (bucket ++ [tuple.subject])
  | none => OrderedMap.set map key [tuple.subject]

/-- The buckets `TupleIndex.of` builds: tuples of other organizations are skipped. -/
def TupleIndex.buckets (orgId : OrgId) (tuples : List RelationTuple) :
    OrderedMap String (List SubjectRef) :=
  (tuples.filter fun tuple => tuple.orgId = orgId).foldl TupleIndex.insert []

/-- The subjects of an organization's tuples, by node key.  The constructor of the source is
    private, so every index comes from `of`; `built` says so. -/
structure TupleIndex where
  orgId : OrgId
  bySubjectNode : OrderedMap String (List SubjectRef)
  built : ∃ tuples, bySubjectNode = TupleIndex.buckets orgId tuples

namespace TupleIndex

def of (orgId : OrgId) (tuples : List RelationTuple) : TupleIndex :=
  ⟨orgId, buckets orgId tuples, tuples, rfl⟩

def subjectsOf (index : TupleIndex) (object : EntityRef) (relation : String) :
    List SubjectRef :=
  (OrderedMap.get? index.bySubjectNode (nodeKey object relation)).getD []

theorem get?_insert (map : OrderedMap String (List SubjectRef)) (tuple : RelationTuple)
    (key : String) :
    (OrderedMap.get? (insert map tuple) key).getD [] =
      (OrderedMap.get? map key).getD [] ++
        (if nodeKey tuple.object tuple.relation = key then [tuple.subject] else []) := by
  unfold insert
  by_cases hk : nodeKey tuple.object tuple.relation = key
  · subst hk
    cases hg : OrderedMap.get? map (nodeKey tuple.object tuple.relation) <;>
      simp only [hg, OrderedMap.get?_set, if_true, Option.getD_some, Option.getD_none,
        List.nil_append]
  · cases hg : OrderedMap.get? map (nodeKey tuple.object tuple.relation) <;>
      simp only [hg, OrderedMap.get?_set, hk, if_false, List.append_nil]

/-- A bucket holds the subjects of the tuples with that key, in order of arrival. -/
theorem get?_foldl_insert (tuples : List RelationTuple) (key : String) :
    ∀ map : OrderedMap String (List SubjectRef),
    (OrderedMap.get? (tuples.foldl insert map) key).getD [] =
      (OrderedMap.get? map key).getD [] ++
        (tuples.filter fun t => nodeKey t.object t.relation = key).map (·.subject) := by
  induction tuples with
  | nil => simp
  | cons t ts ih =>
    intro map
    rw [List.foldl_cons, ih, get?_insert, List.append_assoc]
    by_cases hk : nodeKey t.object t.relation = key <;> simp [hk]

/-- **The bucket of a node is the list of its tuples' subjects.**  The text key loses nothing,
    since stored tuples are made of writable parts. -/
theorem subjectsOf_eq (orgId : OrgId) (tuples : List RelationTuple) (object : EntityRef)
    (relation : String) :
    (of orgId tuples).subjectsOf object relation =
      (tuples.filter fun t =>
        t.orgId = orgId ∧ t.object = object ∧ t.relation = relation).map (·.subject) := by
  have hkey : ∀ t : RelationTuple, nodeKey t.object t.relation = nodeKey object relation ↔
      t.object = object ∧ t.relation = relation := fun t =>
    ⟨fun h => nodeKey_inj t.writableNode h, fun h => by rw [h.1, h.2]⟩
  have h := get?_foldl_insert (tuples.filter fun t => t.orgId = orgId)
    (nodeKey object relation) []
  simp only [OrderedMap.get?_nil, Option.getD_none, List.nil_append, List.filter_filter,
    hkey] at h
  show (OrderedMap.get? (buckets orgId tuples) (nodeKey object relation)).getD [] = _
  rw [show buckets orgId tuples =
    (tuples.filter fun t => t.orgId = orgId).foldl insert [] from rfl, h]
  congr 2
  funext t
  simp [and_comm]

/-- Every subject of an index is writable. -/
theorem writable_of_mem {index : TupleIndex} {object : EntityRef} {relation : String}
    {subject : SubjectRef} (h : subject ∈ index.subjectsOf object relation) :
    assertWritableSubject subject = .ok () := by
  obtain ⟨orgId, map, tuples, rfl⟩ := index
  have h' : subject ∈ (of orgId tuples).subjectsOf object relation := h
  rw [subjectsOf_eq] at h'
  obtain ⟨t, _, rfl⟩ := List.mem_map.mp h'
  exact t.writableSubject

end TupleIndex

end AccessCore
