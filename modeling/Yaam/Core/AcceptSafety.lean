/-
  What a write leaves when it fails, and what its file reads back as.

  * `failed_accept_leaves_nothing_iff`: a write refused because of the record leaves
    nothing behind exactly when the index is not what refuses it;
  * `written_reads_back_iff`: the file of an internal record reads back as written
    exactly when its body survives the separators and is not taken for a sealed
    block.
-/
import Yaam.Core.Resolve
import Yaam.Core.Accept

namespace Yaam.Core

open Text Contract Crypto Md Eff

variable {P : Pipeline} {env : Env} {r : ActionRecord} {body : Text} {σ : Store}

/-! ## What the index is given -/

/-- The shares of a document written by `accept` are of one subject at most, and the
    record names it. -/
theorem checkKeys_settled {d : Document} {keys : Tree} {r' : ActionRecord} {ss : List SubjectRef}
    {st : Stamp} (hss : ss.length ≤ 1) (hb : SettledBody keys r' ss st body d.body) :
    Index.checkKeys (publishInput d) = .ok () := by
  have hone : ∀ keys : List (SubjectHash × Epoch × Bytes), keys.length ≤ 1 →
      Index.firstRepeated (keys.map (·.1)) = none := by
    intro keys h
    match keys, h with
    | [], _ => rfl
    | [_], _ => rfl
  obtain ⟨rec, b⟩ := d
  have hlen : (publishInput ⟨rec, b⟩).subjectKeys.length ≤ 1 := by
    cases hb with
    | plain => exact Nat.zero_le _
    | dropped => exact Nat.zero_le _
    | «sealed» hd b' epoch shares some_share live =>
      have hshares : b'.shares.length ≤ 1 := by
        have := congrArg List.length shares
        simp only [List.length_map, List.length_insertionSort] at this
        omega
      simp only [publishInput, subjectKeys, List.length_map]
      exact (List.length_filter_le _ _).trans hshares
  have hall : ∀ s ∈ (publishInput ⟨rec, b⟩).subjectKeys.map (·.1), rec.names s := by
    cases hb with
    | plain => simp [publishInput, subjectKeys]
    | dropped => simp [publishInput, subjectKeys]
    | «sealed» hd b' epoch shares some_share live =>
      intro s hs
      simp only [publishInput, subjectKeys, List.map_map, List.mem_map, List.mem_filter,
        Function.comp_apply, decide_eq_true_eq] at hs
      obtain ⟨share, ⟨-, hn⟩, rfl⟩ := hs
      exact hn
  have hnamed : Index.firstUnnamed (publishInput ⟨rec, b⟩) = none := by
    rw [Index.firstUnnamed, List.filter_eq_nil_iff.2]
    · rfl
    · intro s hs
      have hn : (publishInput ⟨rec, b⟩).record.names s := hall s hs
      simpa using hn
  rw [Index.checkKeys, hone _ hlen, hnamed]

/-- **What `accept` admits is published exactly when the index reads both stamps.** -/
theorem Admitted.publishable_iff {d : Document} {st : Stamp} (h : Admitted P r body σ d st) :
    (∃ row, Index.Publishable (publishInput d) row) ↔
      Index.Indexable r.at_ ∧ Index.Indexable r.receivedAt := by
  obtain ⟨r', ss, hval, -, hcheck, hrec, hbody⟩ := h.record
  have hv := validated_ok hval
  obtain ⟨hlen, -, -⟩ := checkSubjects_ok hcheck
  have hvalid : d.record.validate = .ok () := by
    rw [hrec]
    exact hv.resolved hcheck
  have hclass : d.record.dataClass = r'.dataClass := by rw [hrec]
  have hat : d.record.at_ = r.at_ := by
    rw [hrec]
    exact hv.at_
  have hre : d.record.receivedAt = r.receivedAt := by
    rw [hrec]
    exact hv.place.receivedAt
  have htext : d.record.dataClass = .subjectDerived → (publishInput d).searchableBody = [] := by
    intro hd
    rw [hclass] at hd
    show d.searchableText = []
    rw [Document.searchableText]
    generalize d.body = b at hbody
    cases hbody with
    | plain hi => exact absurd (hi.symm.trans hd) (by decide)
    | dropped => rfl
    | «sealed» => rfl
  have hrow : (∃ row, Index.recordRow d.record (publishInput d).searchableBody = .ok row) ↔ _ :=
    Index.exists_recordRow_iff hvalid
  rw [hat, hre] at hrow
  constructor
  · rintro ⟨row, hp⟩
    exact (hrow.1 ⟨row, hp.row⟩).1
  · intro hstamps
    obtain ⟨row, hr⟩ := hrow.2 ⟨hstamps, htext⟩
    exact ⟨row, htext, hr, checkKeys_settled hlen hbody⟩

theorem Admitted.precheck_ok {d : Document} {st : Stamp} (h : Admitted P r body σ d st) :
    precheck P r body = .ok () := by
  obtain ⟨dest, -, -, -, hdest, -⟩ := h.dest
  obtain ⟨r', ss, hval, hres, hcheck, -, -⟩ := h.record
  simp only [precheck, hdest, hval, hres, hcheck, bind, Except.bind]

/-! ## Failed writes -/

/-- The failures that are the record's own: a check it does not pass, or the index's
    refusal. -/
def Error.OfRecord : Error → Prop
  | .invalid _ => True
  | .store _ => True
  | _ => False

/-- The record tree, the spool and the index are as before, and the record is not
    taken for one already published. -/
structure LeavesNothing (P : Pipeline) (r : ActionRecord) (σ σ' : Store) : Prop where
  records : σ'.records = σ.records
  quarantine : σ'.quarantine = σ.quarantine
  index : σ'.index = σ.index
  again : ∀ env body id, (accept P env r body σ').1 ≠ .ok (.duplicate id)

/-- Where nothing stands at a record's place, the record is no duplicate. -/
theorem accept_not_duplicate (hfresh : ∀ dest, destination r = .ok dest → dest ∉ σ.records)
    (id : RecordId) : (accept P env r body σ).1 ≠ .ok (.duplicate id) := by
  have hstep := accept_step P env r body σ
  intro h
  rw [h] at hstep
  generalize (accept P env r body σ).2 = σ' at hstep
  cases hstep with
  | duplicate dest hdest htaken => exact hfresh dest hdest htaken

/-- **A write that fails because of the record leaves nothing behind exactly when**
    the record fails a check made before anything is written, or the index reads both
    its stamps. -/
theorem failed_accept_leaves_nothing_iff (P : Pipeline) (env : Env) (r : ActionRecord)
    (body : Text) (σ σ' : Store) (e : Error) (h : accept P env r body σ = (.error e, σ'))
    (he : e.OfRecord) :
    LeavesNothing P r σ σ' ↔
      precheck P r body ≠ .ok () ∨ (Index.Indexable r.at_ ∧ Index.Indexable r.receivedAt) := by
  have hstep := accept_step P env r body σ
  rw [h] at hstep
  cases hstep with
  | refused _ _ hkeys hfresh hwhy =>
    obtain ⟨t, rfl, -⟩ := hkeys
    refine ⟨fun _ => .inl ?_, fun _ => ⟨rfl, rfl, rfl, fun env body id => ?_⟩⟩
    · rcases hwhy with (rfl | ⟨c, rfl⟩) | hwhy
      · exact he.elim
      · exact he.elim
      · exact hwhy
    · refine accept_not_duplicate ?_ id
      exact hfresh
  | unindexed d st dest σ₁ e as_ hkeys hdest hfresh hrefused =>
    constructor
    · intro hleft
      have hmem : dest ∈ σ.records := by
        rw [← hleft.records]
        simp
      exact absurd hmem hfresh
    · rintro (hpre | hstamps)
      · exact absurd as_.precheck_ok hpre
      · obtain ⟨row, hrow⟩ := as_.publishable_iff.2 hstamps
        exact absurd hrow (hrefused row)

section
set_option maxRecDepth 4000

/-- A record whose action is blank is refused before anything is written. -/
theorem failed_accept_blank_action :
    LeavesNothing (deployment declaredSubjects)
      { plainRecord (ulid 'A' (by decide)) "2026-01-01T00:00:00Z".toList with action := [] } emptyStore
      (accept (deployment declaredSubjects) (quietEnv 0)
        { plainRecord (ulid 'A' (by decide)) "2026-01-01T00:00:00Z".toList with action := [] } []
        emptyStore).2 :=
  (failed_accept_leaves_nothing_iff _ (quietEnv 0) _ [] emptyStore _
    (.invalid (.invalid "action is empty")) rfl trivial).2
      (.inl (ne_ok_of_toOption (by decide +kernel) ()))

/-- A record of a leap second: its file is published, the index refuses it, and
    presenting it again is answered as a duplicate. -/
theorem leap_second_is_left : ¬ ∀ (P : Pipeline) (env : Env) (r : ActionRecord) (body : Text)
    (σ σ' : Store) (e : Error), accept P env r body σ = (.error e, σ') → e.OfRecord →
      LeavesNothing P r σ σ' := by
  intro h
  have hleft := h (deployment declaredSubjects) (quietEnv 0)
    (plainRecord (ulid 'A' (by decide)) "2016-12-31T23:59:60Z".toList) [] emptyStore _
    (.store (.sqlite "NOT NULL constraint failed")) rfl trivial
  have hkeys := congrArg (fun t : Tree => t.keys) hleft.records
  revert hkeys
  decide +kernel

end

/-! ## Reading back -/

/-- The document whose file a write adds. -/
theorem written_file {dest : Path} {f : File} (hdest : destination r = .ok dest)
    (hnew : dest ∉ σ.records)
    (hf : (accept P env r body σ).2.records.lookup dest = some f) :
    ∃ d st, Admitted P r body σ d st ∧ f.content = fileBytes P d := by
  have hstep := accept_step P env r body σ
  generalize (accept P env r body σ).1 = res at hstep
  generalize (accept P env r body σ).2 = σ' at hstep hf
  have hold : ∀ σ₁ : Store, OnlyKeys σ σ₁ → σ₁.records = σ.records := by
    rintro σ₁ ⟨t, rfl, -⟩
    rfl
  have habsent : ∀ {t : Tree}, t = σ.records → t.lookup dest ≠ some f := by
    rintro t rfl h
    exact hnew (Tree.mem_iff_lookup.2 ⟨f, h⟩)
  cases hstep with
  | duplicate => exact absurd hf (habsent rfl)
  | refused e _ hkeys => exact absurd hf (habsent (hold _ hkeys))
  | held r' st block σ₁ _ _ hkeys =>
    exact absurd hf (habsent (show (spooled P env r' st block σ₁).records = _ from hold σ₁ hkeys))
  | unindexed d st dest' σ₁ e as_ hkeys hd =>
    obtain rfl : dest = dest' := Except.ok.inj (hdest.symm.trans hd)
    have hlookup : f = ⟨fileBytes P d, env.now⟩ := by
      simpa [placedIn] using hf.symm
    exact ⟨d, st, as_, by rw [hlookup]⟩
  | stored d st dest' σ₁ row ms as_ hkeys hd =>
    obtain rfl : dest = dest' := Except.ok.inj (hdest.symm.trans hd)
    have hlookup : f = ⟨fileBytes P d, env.now⟩ := by
      simpa [settledIn, placedIn] using hf.symm
    exact ⟨d, st, as_, by rw [hlookup]⟩

/-- An internal record is admitted with its body as prose and as its summary. -/
theorem Admitted.internal {d : Document} {st : Stamp} (h : Admitted P r body σ d st)
    (hi : r.dataClass = .internal) :
    d.record.validate = .ok () ∧ d.record.summary = body ∧ d.body = .plain body := by
  obtain ⟨r', ss, hval, -, hcheck, hrec, hbody⟩ := h.record
  have hv := validated_ok hval
  have hclass : r'.dataClass = .internal := hv.dataClass.trans hi
  refine ⟨?_, ?_, ?_⟩
  · rw [hrec]
    exact hv.resolved hcheck
  · rw [hrec]
    exact hv.summary.trans (if_pos hi)
  · generalize hb : d.body = b at hbody
    cases hbody with
    | plain => rfl
    | dropped hd => exact absurd (hclass.symm.trans hd) (by decide)
    | «sealed» hd => exact absurd (hclass.symm.trans hd) (by decide)

/-- **The file of an internal record reads back as written exactly when** its body
    does not end in a carriage return and does not start, after whitespace, with the
    sealed fence. -/
theorem written_reads_back_iff (P : Pipeline) (env : Env) (r : ActionRecord) (body : Text)
    (σ : Store) (dest : Path) (f : File) (hY : P.yaml.Inverts) (hi : r.dataClass = .internal)
    (hdest : destination r = .ok dest) (hnew : dest ∉ σ.records)
    (hf : (accept P env r body σ).2.records.lookup dest = some f) :
    ∃ d, f.content = fileBytes P d ∧ d.body = .plain body ∧ d.record.summary = body ∧
      (ReadsBack P.yaml d body ↔ body.getLast? ≠ some '\r' ∧ isSealed body = false) := by
  obtain ⟨d, st, hd, hfile⟩ := written_file hdest hnew hf
  obtain ⟨hv, hs, hb⟩ := hd.internal hi
  obtain ⟨rec, b⟩ := d
  obtain rfl : b = .plain body := hb
  exact ⟨_, hfile, rfl, hs, readsBack_iff hY hv body⟩

section
set_option maxRecDepth 4000

theorem written_reads_back_note :
    ∃ (f : File) (d : Document), f.content = fileBytes (deployment declaredSubjects) d ∧ d.body = .plain "a\n---\nb\n".toList ∧
      ReadsBack (deployment declaredSubjects).yaml d "a\n---\nb\n".toList := by
  have hsome : ((accept (deployment declaredSubjects) (quietEnv 0)
      (plainRecord (ulid 'A' (by decide)) "2026-01-01T00:00:00Z".toList) "a\n---\nb\n".toList
      emptyStore).2.records.lookup ["2026".toList, "01".toList, "01".toList,
        recordFile (ulid 'A' (by decide))]).isSome = true := by decide +kernel
  obtain ⟨f, hf⟩ := Option.isSome_iff_exists.1 hsome
  obtain ⟨d, hfile, hb, -, hback⟩ := written_reads_back_iff (deployment declaredSubjects) (quietEnv 0)
    (plainRecord (ulid 'A' (by decide)) "2026-01-01T00:00:00Z".toList) "a\n---\nb\n".toList
    emptyStore _ f reader_inverts rfl (ok_of_toOption (by decide +kernel)) (by decide) hf
  exact ⟨f, d, hfile, hb, hback.2 (by decide +kernel)⟩

/-- A body that ends in a carriage return comes back without it. -/
theorem carriage_return_is_lost : ¬ ∀ (P : Pipeline) (env : Env) (r : ActionRecord) (body : Text)
    (σ : Store) (dest : Path) (f : File), P.yaml.Inverts → r.dataClass = .internal →
      destination r = .ok dest → dest ∉ σ.records →
      (accept P env r body σ).2.records.lookup dest = some f →
      ∃ d, f.content = fileBytes P d ∧ ReadsBack P.yaml d body := by
  intro h
  have hsome : ((accept (deployment declaredSubjects) (quietEnv 0)
      (plainRecord (ulid 'A' (by decide)) "2026-01-01T00:00:00Z".toList) "a\r".toList
      emptyStore).2.records.lookup ["2026".toList, "01".toList, "01".toList,
        recordFile (ulid 'A' (by decide))]).isSome = true := by decide +kernel
  obtain ⟨f, hf⟩ := Option.isSome_iff_exists.1 hsome
  have hdest : destination (plainRecord (ulid 'A' (by decide)) "2026-01-01T00:00:00Z".toList) =
      .ok ["2026".toList, "01".toList, "01".toList, recordFile (ulid 'A' (by decide))] :=
    ok_of_toOption (by decide +kernel)
  obtain ⟨d, hfile, hback⟩ := h _ _ _ _ _ _ f reader_inverts rfl hdest (by decide) hf
  obtain ⟨d', st, hd', hfile'⟩ := written_file hdest (by decide) hf
  obtain ⟨hv, -, hb⟩ := hd'.internal rfl
  have hrender : d.render reader = d'.render reader :=
    Utf8.encode_inj (hfile.symm.trans hfile')
  obtain ⟨rec, b⟩ := d'
  obtain rfl : b = .plain "a\r".toList := hb
  obtain ⟨d₁, hparse, hplain, -, -⟩ := hback
  have hread : Document.parse reader (Document.render reader ⟨rec, .plain "a\r".toList⟩) =
      .ok ⟨{ rec with summary := "a".toList }, .plain "a".toList⟩ := by
    rw [parse_render_plain reader_inverts hv]
    rfl
  have hparse' : Document.parse reader (d.render reader) = .ok d₁ := hparse
  rw [hrender, hread] at hparse'
  obtain rfl := Except.ok.inj hparse'
  exact absurd (Body.plain.inj hplain) (by decide)

end

end Yaam.Core
