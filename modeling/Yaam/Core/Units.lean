/-
  Erasure units: the references a deployment keys erasure on, and the pseudonyms they
  resolve to (`yaam-core`, `resolve.rs`).

  * `SubjectKinds` is a declaration that loads, `Reference` a pair the registry admits
    for a declared kind;
  * `resolution` is a record's subjects, as the write pipeline asks for them;
  * `references_told_apart`: what two references resolve to, and what the erasure of
    one leaves of the other;
  * `spelling_ne_of_plain`: references that the pseudonym's ruleset leaves as they are
    are told apart.
-/
import Yaam.Core.Resolve
import Yaam.Core.Spared
import Yaam.Crypto.Subject

namespace Yaam.Core

open Text Contract Crypto

/-- The kinds a deployment keys erasure on, most preferred first: a `subjects.yaml` that
    loads beside this registry. -/
structure SubjectKinds (reg : Registry) where
  kinds : List Text
  nonempty : kinds ≠ []
  nodup : kinds.Nodup
  known : ∀ k ∈ kinds, ∃ spec ∈ reg.kinds, spec.name = k

/-- Builds the resolver from a declaration and the keying secret. -/
def ReferenceSubjects.new (H : Hashing) {reg : Registry} (K : SubjectKinds reg) (key : SubjectKey) :
    ReferenceSubjects where
  kinds := K.kinds
  derive raw := match key.derive H .current raw with
    | .ok p => .ok (p.hash, p.canonVer)
    | .error e => .error e.display

/-- A record's subjects, resolved over its entities in canonical form. -/
def resolution (P : Pipeline) (R : ReferenceSubjects) (r : ActionRecord) :
    Except Contract.Error Resolution := do
  let entities ← canonicalEntities P r.entities
  return R.resolve { r with entities }

/-- An erasure unit: an identifier in the form the registry admits it in, under a declared
    kind. -/
structure Reference (reg : Registry) (K : SubjectKinds reg) where
  kind : Text
  id : Text
  declared : kind ∈ K.kinds
  admitted : ∃ raw, reg.canonicalise kind raw = .ok id

section
variable {reg : Registry} {K : SubjectKinds reg}

/-- What a reference's pseudonym is taken over. -/
def Reference.named (e : Reference reg K) : Text := e.kind ++ ':' :: e.id

/-- What is hashed for a reference: its name without outer blanks, in lower case and in
    composed form. -/
def Reference.spelling (H : Hashing) (e : Reference reg K) : Text :=
  H.nfc (H.casing.lower (H.nfc (trim e.named)))

def Reference.pseudonym (H : Hashing) (key : SubjectKey) (e : Reference reg K) : Pseudonym :=
  key.tag H Canon.current.version (e.spelling H)

/-- The reference decides about a record: the record states none of a kind preferred to
    its kind, and no other of its kind. -/
structure Reference.Decides (e : Reference reg K) (r : ActionRecord) : Prop where
  derived : r.dataClass ≠ .internal
  sole : statedIds r e.kind = [e.id]
  first : ∃ before after, K.kinds = before ++ e.kind :: after ∧ ∀ k ∈ before, statedIds r k = []

/-- A record presented with raw identifiers comes down to the reference. -/
def Reference.PresentedBy (P : Pipeline) (e : Reference reg K) (r : ActionRecord) : Prop :=
  ∃ entities, canonicalEntities P r.entities = .ok entities ∧ e.Decides { r with entities }

/-! ## Resolution -/

theorem tryKinds_append (R : ReferenceSubjects) {r : ActionRecord} {before : List Text}
    (hbefore : ∀ k ∈ before, statedIds r k = []) (kinds : List Text) :
    R.tryKinds r (before ++ kinds) = R.tryKinds r kinds := by
  induction before with
  | nil => rfl
  | cons k before ih =>
    rw [List.cons_append, ReferenceSubjects.tryKinds, hbefore k (by simp)]
    exact ih fun k' hk' => hbefore k' (by simp [hk'])

/-- A name has more than blanks in it. -/
theorem Reference.trim_named_ne_nil (e : Reference reg K) : trim e.named ≠ [] := by
  have hcolon : ':' ∈ trim e.named := mem_trim (by simp [Reference.named]) (by decide)
  exact List.ne_nil_of_mem hcolon

theorem Reference.derive_eq {H : Hashing} (hH : H.Lasting) (key : SubjectKey) (e : Reference reg K) :
    key.derive H .current e.named = .ok (e.pseudonym H key) := by
  obtain ⟨t, ht⟩ := Canon.exists_canonicalise hH .current e.trim_named_ne_nil
  refine derive_ok.2 ⟨t, ht, ?_⟩
  rw [Canon.canonicalise_ok ht]
  rfl

/-- **A record that a reference decides about resolves to its pseudonym.** -/
theorem Reference.Decides.resolve {H : Hashing} (hH : H.Lasting) (key : SubjectKey)
    {e : Reference reg K} {r : ActionRecord} (h : e.Decides r) :
    (ReferenceSubjects.new H K key).resolve r =
      .resolved [⟨(e.pseudonym H key).hash, .principal, (e.pseudonym H key).canonVer⟩] := by
  obtain ⟨before, after, hkinds, hbefore⟩ := h.first
  have hderive := e.derive_eq hH key
  rw [ReferenceSubjects.resolve, if_neg h.derived]
  show ReferenceSubjects.tryKinds _ r K.kinds = _
  rw [hkinds, tryKinds_append _ hbefore, ReferenceSubjects.tryKinds, h.sole]
  rw [Reference.named] at hderive
  simp only [ReferenceSubjects.new, hderive]

theorem Reference.resolution_eq {P : Pipeline} {K : SubjectKinds P.registry} {H : Hashing}
    (hH : H.Lasting) (key : SubjectKey) {e : Reference P.registry K} {r : ActionRecord}
    (h : e.PresentedBy P r) :
    resolution P (.new H K key) r = .ok
      (.resolved [⟨(e.pseudonym H key).hash, .principal, (e.pseudonym H key).canonVer⟩]) := by
  obtain ⟨entities, hes, hd⟩ := h
  rw [resolution, hes, ← hd.resolve hH key]
  rfl

/-! ## What is told apart -/

/-- The HMAC does not collide on what two references are named by. -/
def NoCollision (H : Hashing) (key : SubjectKey) (e e' : Reference reg K) : Prop :=
  let message := fun e : Reference reg K => framed Canon.current.version (e.spelling H)
  H.hmac key.bytes (message e) = H.hmac key.bytes (message e') → message e = message e'

/-- **What becomes of two references**: each resolves to its pseudonym; spelled differently
    they have different ones, and the erasure of the first leaves every body of the second
    as readable as it was, unless an erasure on record names that one too; spelled alike
    under one kind they have the same. -/
structure ToldApart (P : Pipeline) {K : SubjectKinds P.registry} (H : Hashing) (key : SubjectKey)
    (e e' : Reference P.registry K) : Prop where
  left : ∀ r, e.PresentedBy P r → resolution P (.new H K key) r = .ok
    (.resolved [⟨(e.pseudonym H key).hash, .principal, (e.pseudonym H key).canonVer⟩])
  right : ∀ r, e'.PresentedBy P r → resolution P (.new H K key) r = .ok
    (.resolved [⟨(e'.pseudonym H key).hash, .principal, (e'.pseudonym H key).canonVer⟩])
  distinct : e.spelling H ≠ e'.spelling H → (e.pseudonym H key).hash ≠ (e'.pseudonym H key).hash
  spared : e.spelling H ≠ e'.spelling H → ∀ env σ,
    Unlogged P (e'.pseudonym H key).hash
      (eraseSubject P env (e.pseudonym H key).hash σ).2.tombstoneLog →
    Spared P (e'.pseudonym H key).hash σ (eraseSubject P env (e.pseudonym H key).hash σ).2 ∧
    ∀ C O store record block,
      (∀ w ∈ block.shares, w.subject = (e'.pseudonym H key).hash) →
      («unseal» C O store record block (eraseSubject P env (e.pseudonym H key).hash σ).2.keys).1 =
        («unseal» C O store record block σ.keys).1
  alike : e.kind = e'.kind → e.spelling H = e'.spelling H → e.pseudonym H key = e'.pseudonym H key

/-- **References spelled differently are different erasure units**, whatever the registry
    and the declaration. -/
theorem references_told_apart {P : Pipeline} {K : SubjectKinds P.registry} {H : Hashing}
    (hH : H.Lasting) {key : SubjectKey} {e e' : Reference P.registry K}
    (hmac : NoCollision H key e e') : ToldApart P H key e e' := by
  have hdistinct : e.spelling H ≠ e'.spelling H →
      (e.pseudonym H key).hash ≠ (e'.pseudonym H key).hash := fun hne h =>
    hne (framed_inj (hmac (tag_hash_eq h)))
  refine ⟨fun r hr => Reference.resolution_eq hH key hr, fun r hr => Reference.resolution_eq hH key hr,
    hdistinct, ?_, ?_⟩
  · intro hne env σ hlog
    have hspared := eraseSubject_spares (hdistinct hne) hlog
    exact ⟨hspared, fun C O store record block hshares => hspared.unseal_eq C O store record hshares⟩
  · intro _ hspelling
    rw [Reference.pseudonym, hspelling, Reference.pseudonym]

/-- **References that the ruleset leaves as they are** are spelled differently when they
    differ, under kinds without a colon. -/
theorem spelling_ne_of_plain {H : Hashing} {e e' : Reference reg K} (hk : ':' ∉ e.kind)
    (hk' : ':' ∉ e'.kind) (he : e.spelling H = e.named) (he' : e'.spelling H = e'.named)
    (hne : (e.kind, e.id) ≠ (e'.kind, e'.id)) : e.spelling H ≠ e'.spelling H := by
  rw [he, he']
  intro h
  have hsplit := congrArg (splitOnce ':') h
  rw [Reference.named, Reference.named, splitOnce_append_cons hk, splitOnce_append_cons hk'] at hsplit
  exact hne (Option.some.inj hsplit)

end

/-! ## A deployment that keys erasure on chat users -/

/-- ASCII casing, no composition, and a stand-in for the HMAC. -/
def plainHashing : Hashing where
  casing := ⟨List.map Char.toLower, List.map Char.toUpper⟩
  nfc := id
  hmac _ m := (m.drop 20 ++ List.replicate 32 0).take 32
  length_hmac _ _ := by simp

theorem plainHashing_lasting : plainHashing.Lasting :=
  ⟨fun _ h => h, fun _ h => List.map_eq_nil_iff.1 h⟩

/-- `^[A-Za-z0-9._:-]{1,64}$`, trimmed. -/
def chatUser : KindSpec where
  name := "chat_user".toList
  pattern t := t.length ∈ List.range' 1 64 ∧ t.all fun c => c.isAlphanum || c ∈ ['.', '_', ':', '-']
  normalise := [.trim]

def chatPipeline : Pipeline :=
  { deployment declaredSubjects with registry := ⟨plainHashing.casing, [chatUser]⟩ }

def chatKinds : SubjectKinds chatPipeline.registry where
  kinds := [chatUser.name]
  nonempty := by simp
  nodup := by simp
  known := by simp [chatPipeline]

/-- One chat user's reference. -/
def userRef (id : Text) (h : chatPipeline.registry.canonicalise chatUser.name id = .ok id) :
    Reference chatPipeline.registry chatKinds :=
  ⟨chatUser.name, id, by simp [chatKinds], id, h⟩

def lowerAlice := userRef "alice".toList (by rfl)
def upperAlice := userRef "Alice".toList (by rfl)
def bob := userRef "bob".toList (by rfl)

def subjectKey : SubjectKey := ⟨List.replicate 32 7, by simp⟩

/-- A record about one chat user. -/
def chatRecord (id : Text) : ActionRecord :=
  { plainRecord (ulid 'A' isCrockfordDigit_A) [] with
    dataClass := .subjectDerived, entities := [⟨chatUser.name, id, .primary, fieldConfidence⟩] }

theorem userRef_presentedBy {id : Text}
    (h : chatPipeline.registry.canonicalise chatUser.name id = .ok id) :
    (userRef id h).PresentedBy chatPipeline (chatRecord id) := by
  refine ⟨(chatRecord id).entities, ?_, nofun, ?_, [], [], rfl, by simp⟩
  · show [_].mapM _ = _
    simp [chatRecord, h, pure, Except.pure, bind, Except.bind]
  · simp [statedIds, chatRecord, userRef]

theorem references_told_apart_users :
    lowerAlice.spelling plainHashing ≠ bob.spelling plainHashing ∧
      ToldApart chatPipeline plainHashing subjectKey lowerAlice bob :=
  ⟨by decide +kernel,
    references_told_apart plainHashing_lasting (by unfold NoCollision; decide +kernel)⟩

/-- **Two identifiers that the registry keeps apart share a pseudonym.** -/
theorem alices_share_pseudonym :
    ¬ ∀ e e' : Reference chatPipeline.registry chatKinds, (e.kind, e.id) ≠ (e'.kind, e'.id) →
      ∀ r r', e.PresentedBy chatPipeline r → e'.PresentedBy chatPipeline r' →
        resolution chatPipeline (.new plainHashing chatKinds subjectKey) r ≠
          resolution chatPipeline (.new plainHashing chatKinds subjectKey) r' := by
  intro h
  have hspelling : lowerAlice.spelling plainHashing = upperAlice.spelling plainHashing := by
    decide +kernel
  refine h lowerAlice upperAlice (by simp [lowerAlice, upperAlice, userRef]) _ _
    (userRef_presentedBy _) (userRef_presentedBy _) ?_
  rw [Reference.resolution_eq plainHashing_lasting subjectKey (e := lowerAlice) (userRef_presentedBy _),
    Reference.resolution_eq plainHashing_lasting subjectKey (e := upperAlice) (userRef_presentedBy _)]
  rw [Reference.pseudonym, hspelling, Reference.pseudonym]

end Yaam.Core
