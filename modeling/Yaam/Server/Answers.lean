/-
  What a read answers with.

  * `Caller.MayRead` is who may read what, over the role a keyring gives;
  * `read_entitled`: every structure in a read's answer is that of an indexed record its
    caller may read, without prose;
  * `answers_are_entitled`: so over any run, and each one was filed by an agent under its
    own name;
  * `reads_depend_on_scope`: what a caller may not read does not bear on what it is
    answered.
-/
import Yaam.Server.Attributed

namespace Yaam.Server

open Text Contract Contract.Request Crypto Index Eff
open Core (Store Vouched asSent Bundle BundleRequest Source)

/-- **Who may read what.** -/
def Caller.MayRead (c : Caller) (rec : ActionRecord) : Prop :=
  match rec.visibility with
  | .org => True
  | .team => ∃ team ∈ c.teams, rec.team = some team
  | .owner => rec.agent = c.agent
  | .operator => c.role = .operator

/-- The structures an answer carries. -/
def Answer.structures : Answer → List ActionRecord
  | .written _ _ => []
  | .records rs _ => rs
  | .correlations ps _ => ps.flatMap fun p => [p.1, p.2]
  | .links edges _ _ => edges.map (·.via)
  | .bundle b => b.records
  | .erased _ _ => []

def Response.structures : Response → List ActionRecord
  | .answered _ answer => answer.structures
  | .failed _ => []
  | .rejected _ => []

section
variable {A : AppState} {c : Caller} {T T' : Tables} {P : ActionRecord → Prop} {scope : Scope}

theorem Caller.admits_scope {rec : RecordRow} : c.scope.admits rec = true ↔ c.MayRead rec.frontmatter := by
  have hop : c.role.covers .operator = true ↔ c.role = .operator := by
    cases c.role <;> decide
  rw [Caller.scope, Scope.admits_iff_entitled, Entitled, MayRead]
  by_cases h : c.role = .operator
  · rw [if_pos (hop.2 h)]
    cases rec.frontmatter.visibility <;> simp [h]
  · rw [if_neg (mt hop.1 h)]
    cases rec.frontmatter.visibility <;> simp [h]

/-! ## Bundles -/

theorem mem_takeOne {cap : ℕ} {found : List ActionRecord} {s : ActionRecord}
    (acc : List ActionRecord × List RecordId × ℕ) (h : s ∈ (found.foldl (Core.takeOne cap) acc).1) :
    s ∈ acc.1 ∨ s ∈ found := by
  induction found generalizing acc with
  | nil => exact .inl h
  | cons r found ih =>
    obtain ⟨records, seen, dropped⟩ := acc
    rcases ih _ h with h | h
    · simp only [Core.takeOne] at h
      split_ifs at h
      · exact .inl h
      · exact .inl h
      · rcases List.mem_append.1 h with h | h
        · exact .inl h
        · exact .inr (by simp_all)
    · exact .inr (List.mem_cons_of_mem _ h)

theorem mem_consult {q : BundleRequest} {expired : Bool} {b b' : Bundle × List RecordId}
    {source : Source} (h : Core.consult T q expired b source = .ok b') {s : ActionRecord}
    (hs : s ∈ b'.1.records) :
    s ∈ b.1.records ∨ ∃ found, source.read T q.scope q.sourceLimit = .ok found ∧ s ∈ found := by
  unfold Core.consult at h
  split_ifs at h
  · obtain rfl := Except.ok.inj h
    exact .inl hs
  · obtain ⟨found, hfound, h⟩ := bind_ok.1 h
    obtain rfl := Except.ok.inj h
    have hcap : ∀ x : Bundle × List ActionRecord, x = Core.capSource b.1 found source →
        x.1.records = b.1.records ∧ x.2 ⊆ found := by
      rintro x rfl
      unfold Core.capSource
      split_ifs
      · exact ⟨rfl, List.take_subset _ _⟩
      · exact ⟨rfl, List.Subset.refl _⟩
    obtain ⟨hrecords, hfound'⟩ := hcap _ rfl
    have htake : s ∈ ((Core.capSource b.1 found source).2.foldl (Core.takeOne q.cap)
        ((Core.capSource b.1 found source).1.records, b.2, 0)).1 := by
      simp only [Core.take] at hs
      split_ifs at hs <;> exact hs
    rcases mem_takeOne _ htake with h | h
    · exact .inl (hrecords ▸ h)
    · exact .inr ⟨found, hfound, hfound' h⟩

/-- A bundle's records were read of its sources. -/
theorem mem_compose {wireBytes : ActionRecord → ℕ} {clock : ℕ → ℕ} {q : BundleRequest} {b : Bundle}
    (h : Core.compose wireBytes clock T q = .ok b) {s : ActionRecord} (hs : s ∈ b.records) :
    ∃ (source : Source) (found : List ActionRecord), source.read T q.scope q.sourceLimit = .ok found ∧ s ∈ found := by
  obtain ⟨⟨bundle, seen⟩, hfold, h⟩ := bind_ok.1 h
  obtain rfl := Except.ok.inj h
  have hrun : ∀ (looks : List (Source × ℕ)) (acc acc' : Bundle × List RecordId),
      looks.foldlM (fun s look =>
        Core.consult T q (clock 0 + q.deadlineMs ≤ clock (look.2 + 1)) s look.1) acc = .ok acc' →
      s ∈ acc'.1.records → s ∈ acc.1.records ∨
        ∃ (source : Source) (found : List ActionRecord), source.read T q.scope q.sourceLimit = .ok found ∧ s ∈ found := by
    intro looks
    induction looks with
    | nil =>
      intro acc acc' h hs
      obtain rfl := Except.ok.inj h
      exact .inl hs
    | cons look looks ih =>
      intro acc acc' h hs
      rw [List.foldlM_cons] at h
      obtain ⟨mid, hmid, h⟩ := bind_ok.1 h
      rcases ih mid acc' h hs with h | h
      · exact (mem_consult hmid h).imp_right fun ⟨found, hfound, hs⟩ => ⟨look.1, found, hfound, hs⟩
      · exact .inr h
  rcases hrun _ _ _ hfold hs with h | h
  · exact absurd h List.not_mem_nil
  · exact h

/-! ## One read -/

/-- **A read answers with what its caller may read.** -/
theorem read_entitled {clock : ℕ → ℕ} {asked : Read} {answer : Answer}
    (h : A.read clock T c asked = .ok answer) :
    ∀ s ∈ answer.structures, ReadStructure c.MayRead T s := by
  have hreads : ReadsOnly c.MayRead c.scope T :=
    readsOnly_of_admits (fun _ hrec => Caller.admits_scope.1 hrec) T
  have hsearch : SearchesOnly c.MayRead c.scope T :=
    searchesOnly_of_admits (fun _ hrec => Caller.admits_scope.1 hrec) T
  cases asked with
  | queryRecords params =>
    obtain ⟨filter, -, h⟩ := bind_ok.1 h
    obtain ⟨records, hrecords, h⟩ := bind_ok.1 h
    obtain rfl := Except.ok.inj h
    exact (hreads.byFilter { filter with scope := c.scope } rfl).2 records (Core.mapError_ok.1 hrecords)
  | searchRecords params =>
    obtain ⟨records, hrecords, h⟩ := bind_ok.1 h
    obtain rfl := Except.ok.inj h
    intro s hs
    obtain ⟨rec, hrec, hok, hP, -⟩ := hsearch.structures _ _ _ records (Core.mapError_ok.1 hrecords) s hs
    exact ⟨rec, hrec, hok, hP⟩
  | entityRecords kind id params =>
    obtain ⟨window, -, h⟩ := bind_ok.1 h
    obtain ⟨records, hrecords, h⟩ := bind_ok.1 h
    obtain rfl := Except.ok.inj h
    obtain ⟨id', -, hrecords⟩ := bind_ok.1 hrecords
    exact (hreads.byEntity _ _ _ _ _).2 records (Core.mapError_ok.1 hrecords)
  | correlateRecords params =>
    obtain ⟨join, -, h⟩ := bind_ok.1 h
    obtain ⟨pairs, hpairs, h⟩ := bind_ok.1 h
    obtain rfl := Except.ok.inj h
    intro s hs
    obtain ⟨p, hp, hs⟩ := List.mem_flatMap.1 hs
    obtain ⟨hleft, hright⟩ := (hreads.correlate { join.1 with scope := c.scope }
      { join.2.1 with scope := c.scope } join.2.2 rfl rfl).2 pairs (Core.mapError_ok.1 hpairs) p hp
    simp only [List.mem_cons, List.not_mem_nil, or_false] at hs
    rcases hs with rfl | rfl
    · exact hleft
    · exact hright
  | linkedEntities kind id params =>
    obtain ⟨t, -, h⟩ := bind_ok.1 h
    obtain ⟨links, hlinks, h⟩ := bind_ok.1 h
    obtain rfl := Except.ok.inj h
    obtain ⟨id', -, hlinks⟩ := bind_ok.1 hlinks
    intro s hs
    obtain ⟨l, hl, rfl⟩ : ∃ l ∈ links, l.via = s := by simpa [LinksResponse.new, Answer.structures] using hs
    exact (hreads.linked { t with id := id', scope := c.scope } rfl).2 links (Core.mapError_ok.1 hlinks) l hl
  | composeBundle params =>
    obtain ⟨request, -, h⟩ := bind_ok.1 h
    obtain ⟨bundle, hbundle, h⟩ := bind_ok.1 h
    obtain rfl := Except.ok.inj h
    obtain ⟨entities, -, hbundle⟩ := bind_ok.1 hbundle
    intro s hs
    obtain ⟨source, found, hfound, hs⟩ := mem_compose (Core.mapError_ok.1 hbundle) hs
    cases source with
    | entity kind id => exact (hreads.byEntity _ _ _ _ _).2 found hfound s hs
    | actor agent => exact (hreads.byFilter (Core.actorFilter _ _ c.scope) rfl).2 found hfound s hs

/-! ## Over a run -/

/-- Only a read is answered with structures. -/
theorem handle_structures {at_ : Surroundings} {r : HttpRequest} {endpoint : Endpoint} {σ σ' : Store}
    {status : Status} {answer : Answer} (h : A.handle at_ c r endpoint σ = (.ok (status, answer), σ'))
    {s : ActionRecord} (hs : s ∈ answer.structures) :
    ∃ asked, A.read at_.clock σ.index c asked = .ok answer := by
  cases endpoint with
  | writeRecord =>
    obtain ⟨request, σ₁, -, h⟩ := bind_eq_ok.1 h
    obtain ⟨outcome, σ₂, -, h⟩ := bind_eq_ok.1 h
    have hnone : answer.structures = [] := by
      cases outcome <;> exact congrArg (·.2.structures) (pure_eq_ok.1 h).1.symm
    rw [hnone] at hs
    exact absurd hs List.not_mem_nil
  | eraseSubject =>
    obtain ⟨_, σ₁, -, h⟩ := bind_eq_ok.1 h
    obtain ⟨subject, σ₂, -, h⟩ := bind_eq_ok.1 h
    obtain ⟨report, σ₃, -, h⟩ := bind_eq_ok.1 h
    have hnone : answer.structures = [] := congrArg (·.2.structures) (pure_eq_ok.1 h).1.symm
    rw [hnone] at hs
    exact absurd hs List.not_mem_nil
  | read asked =>
    rw [handle_read] at h
    cases hread : A.read at_.clock σ.index c asked with
    | error e => simp [hread, Except.map] at h
    | ok answer' =>
      simp only [hread, Except.map, Prod.mk.injEq, Except.ok.injEq] at h
      exact ⟨asked, h.1.2 ▸ hread⟩

/-- What a response carries was read of the index, by an agent that signed for it. -/
theorem serve_structures {at_ : Surroundings} {r : HttpRequest} {σ : Store} {s : ActionRecord}
    (hs : s ∈ (serve A at_ r σ).1.structures) :
    ∃ c ∈ A.keyring.credentials, (∃ key, r.SignedUnder A.hmac c key) ∧
      ReadStructure c.caller.MayRead σ.index s := by
  unfold serve at hs
  cases hauth : A.authenticate r with
  | error e => simp [hauth, Response.structures] at hs
  | ok caller =>
    cases hroute : A.route r.method r.target with
    | error status => simp [hauth, hroute, Response.structures] at hs
    | ok endpoint =>
      simp only [hauth, hroute] at hs
      rcases hres : A.handle at_ caller r endpoint σ with ⟨_ | ⟨status, answer⟩, σ'⟩
      · simp [hres, Response.structures] at hs
      · rw [hres] at hs
        obtain ⟨asked, hread⟩ := handle_structures hres hs
        obtain ⟨-, cred, hcred, rfl, hsigned⟩ := AppState.authenticate_ok hauth
        exact ⟨cred, hcred, hsigned, read_entitled hread s hs⟩

/-- **Every answer is entitled, and every structure in it attributed.**  In any run of
    requests and maintenance rounds, what a request is answered with are structures
    without prose, which the agent whose key signed the request may read at its role; and
    each says what a record did before the run, or what a request of the run filed over
    its own agent's signature. -/
theorem answers_are_entitled (A : AppState) (hY : A.service.pipeline.yaml.Inverts)
    (before : ActionRecord → Prop) (σ : Store) (hσ : Vouched A.service.pipeline before σ)
    (events : List Event) (at_ : Surroundings) (r : HttpRequest) :
    ∀ s ∈ (serve A at_ r (Event.runAll A σ events)).1.structures,
      (∃ c ∈ A.keyring.credentials, (∃ key, r.SignedUnder A.hmac c key) ∧ c.caller.MayRead s) ∧
        s.bare = s ∧
        (before (asSent s) ∨ ∃ at' r', .request at' r' ∈ events ∧ A.Filed r' (asSent s)) := by
  intro s hs
  have hrun := runAll_vouched hY events (fun at_ r h _ hv => .inr ⟨at_, r, h, hv⟩)
    (hσ.imp fun _ => Or.inl (b := ∃ at' r', .request at' r' ∈ events ∧ A.Filed r' _))
  obtain ⟨cred, hcred, hsigned, row, hrow, hstored, hread⟩ := serve_structures hs
  obtain ⟨-, rfl⟩ := storedStructure_ok hstored
  exact ⟨⟨cred, hcred, hsigned, hread⟩, rfl, hrun.index row hrow⟩

/-- The writer asks for what there is. -/
def readRequest : HttpRequest where
  method := "GET".toList
  target := "/records".toList
  headers := [(AGENT_HEADER, Utf8.encode "agent".toList),
    (SIGNATURE_HEADER, Utf8.encode (sign noteState.hmac [1, 2, 3] "GET".toList
      "/records".toList "agent".toList []))]
  body := []
  method_line := by decide
  target_line := noteRequest.target_line

theorem answers_are_entitled_note :
    (serve noteState ⟨Core.quietEnv 1, fun _ => 0⟩ readRequest
      (Event.runAll noteState Core.emptyStore
        [.request ⟨Core.quietEnv 0, fun _ => 0⟩ noteRequest])).1.structures.length = 1 ∧
    (serve noteState ⟨Core.quietEnv 1, fun _ => 0⟩ readRequest
      (Event.runAll noteState Core.emptyStore
        [.request ⟨Core.quietEnv 0, fun _ => 0⟩ noteRequest])).1.structures.map asSent ⊆
      [asSent note] := by
  refine ⟨by decide +kernel, fun v hv => ?_⟩
  obtain ⟨s, hs, rfl⟩ := List.mem_map.1 hv
  obtain ⟨-, -, h | ⟨at_, r, -, hfiled⟩⟩ := answers_are_entitled noteState Md.reader_inverts
    (fun _ => False) Core.emptyStore (Vouched.empty _ _) _ _ _ s hs
  · exact h.elim
  · exact List.mem_singleton.2 (filed_note hfiled)

/-! ## What a caller may not read -/

/-- The candidates that the full-text index offers of what a scope admits. -/
def offered (F : FullText) (T : Tables) (needle : Text) (limit : UInt32) (scope : Scope) :
    Except FullTextError (List (RecordId × ℚ)) :=
  (F T needle).map fun found => (found.take (candidateCeiling limit)).filter fun hit =>
    T.records.any fun rec => rec.recordId = hit.1 && scope.admits rec

/-- What a read asks of two indexes beyond the records it may return: a search, that the
    full-text index offer the same of them; a traversal, that its frontier not overflow and
    that it meet entities of the same degrees. -/
def Read.Alike (S : CoreService) (c : Caller) (T T' : Tables) : Read → Prop
  | .searchRecords params =>
    offered S.fullText T params.q (params.limit.getD (.ofNat DEFAULT_STRUCTURE_LIMIT)) c.scope =
      offered S.fullText T' params.q (params.limit.getD (.ofNat DEFAULT_STRUCTURE_LIMIT)) c.scope
  | .linkedEntities kind id params =>
    ∀ asked id', params.intoTraversal kind id = .ok asked → S.canonical asked.kind asked.id = .ok id' →
      (reached T { asked with id := id', scope := c.scope }).length < MAX_FRONTIER ∧
        ∀ e ∈ reached T { asked with id := id', scope := c.scope },
          degree T { asked with id := id', scope := c.scope } e.to_ =
            degree T' { asked with id := id', scope := c.scope } e.to_
  | _ => True

/-- The rows of one candidate. -/
def candidateRows (T : Tables) (scope : Scope) (hit : RecordId × ℚ) : List (ℚ × RecordRow) :=
  T.records.filter (fun rec => rec.recordId = hit.1 ∧ ¬ rec.sealed ∧ scope.admits rec) |>.map (hit.2, ·)

theorem candidateRows_eq_nil {hit : RecordId × ℚ}
    (h : (T.records.any fun rec => rec.recordId = hit.1 && scope.admits rec) = false) :
    candidateRows T scope hit = [] := by
  rw [candidateRows, List.map_eq_nil_iff, List.filter_eq_nil_iff]
  intro rec hrec hkept
  obtain ⟨hid, -, hadm⟩ := of_decide_eq_true hkept
  have hnot := List.any_eq_false.1 h rec hrec
  simp [hid, hadm] at hnot

theorem mem_candidateRows {hit : RecordId × ℚ} {x : ℚ × RecordRow} (h : x ∈ candidateRows T scope hit) :
    x.2 ∈ T.records ∧ scope.admits x.2 = true := by
  obtain ⟨rec, hrec, rfl⟩ := List.mem_map.1 h
  obtain ⟨hmem, hkept⟩ := List.mem_filter.1 hrec
  exact ⟨hmem, (of_decide_eq_true hkept).2.2⟩

/-- **A search depends on what its scope admits, and on the candidates it is offered.** -/
theorem searchRows_congr (h : Agree scope T T') {F : FullText} {needle : Text} {limit : UInt32}
    (hF : offered F T needle limit scope = offered F T' needle limit scope) :
    searchRows F T needle limit scope = searchRows F T' needle limit scope := by
  have hrow : ∀ hit, candidateRows T scope hit = candidateRows T' scope hit := fun hit => by
    refine congrArg _ (h.filter (fun rec hrec => ?_) (fun rec hrec => ?_) fun _ _ _ => rfl)
    · simp [hrec]
    · simp [hrec]
  have hrows : ∀ (U : Tables) (found : List (RecordId × ℚ)), found.flatMap (candidateRows U scope) =
      (found.filter fun hit => U.records.any fun rec => rec.recordId = hit.1 && scope.admits rec).flatMap
        (candidateRows U scope) :=
    fun U found => flatMap_filter fun _ _ => candidateRows_eq_nil
  have horder : ∀ found : List (RecordId × ℚ),
      orderBy (relevanceOrder T) (found.flatMap (candidateRows T scope)) =
        orderBy (relevanceOrder T') (found.flatMap (candidateRows T scope)) := by
    intro found
    refine orderBy_congr fun x hx y hy => ?_
    have hmem : ∀ r ∈ found.flatMap (candidateRows T scope), r.2 ∈ T.records ∧ scope.admits r.2 = true := by
      intro r hr
      obtain ⟨hit, -, hr⟩ := List.mem_flatMap.1 hr
      exact mem_candidateRows hr
    simp only [relevanceOrder, compareLex, h.descending_pk hmem hx hy]
  have hsearch : ∀ U : Tables, searchRows F U needle limit scope =
      ((F U needle).mapError (refusedNeedle needle)).map fun found =>
        ((orderBy (relevanceOrder U) ((found.take (candidateCeiling limit)).flatMap
          (candidateRows U scope))).take limit.toNat).map (·.2) := by
    intro U
    unfold searchRows
    cases F U needle <;> rfl
  rw [hsearch, hsearch]
  unfold offered at hF
  cases hfound : F T needle with
  | error e =>
    cases hfound' : F T' needle with
    | error e' =>
      obtain rfl : e = e' := by simpa [hfound, hfound', Except.map] using hF
      rfl
    | ok found' => simp [hfound, hfound', Except.map] at hF
  | ok found =>
    cases hfound' : F T' needle with
    | error e' => simp [hfound, hfound', Except.map] at hF
    | ok found' =>
      simp only [hfound, hfound', Except.map, Except.ok.injEq] at hF
      have hsame : (found.take (candidateCeiling limit)).flatMap (candidateRows T scope) =
          (found'.take (candidateCeiling limit)).flatMap (candidateRows T' scope) := by
        rw [hrows, hrows T', hF]
        exact List.flatMap_congr fun hit _ => hrow hit
      simp only [Except.map, Except.mapError]
      rw [horder, hsame]

/-- A bundle's sources are read as their scope has them. -/
theorem compose_congr (h : Agree scope T T') (wireBytes : ActionRecord → ℕ) (clock : ℕ → ℕ)
    {q : BundleRequest} (hq : q.scope = scope) :
    Core.compose wireBytes clock T q = Core.compose wireBytes clock T' q := by
  have hread : ∀ source : Source, source.read T q.scope q.sourceLimit =
      source.read T' q.scope q.sourceLimit := by
    intro source
    rw [hq]
    cases source with
    | entity kind id => exact (h.sameReads.byEntity _ _ _ _ _).2
    | actor agent => exact (h.sameReads.byFilter (Core.actorFilter agent q.sourceLimit scope) rfl).2
  have hconsult : Core.consult T q = Core.consult T' q := by
    funext expired b source
    simp only [Core.consult, hread]
  simp only [Core.compose, hconsult]

/-- **What a caller may not read does not bear on its answers.**  Two indexes that agree on
    the records a caller may read, and may differ in all others, answer its every read
    with the same structures, counts and refusals: a record query, an entity's history, a
    correlation and a bundle without more, a search and a traversal as `Read.Alike` has it. -/
theorem reads_depend_on_scope (A : AppState) (c : Caller) (T T' : Tables) (h : Agree c.scope T T')
    (clock : ℕ → ℕ) (asked : Read) (halike : asked.Alike A.service c T T') :
    A.read clock T c asked = A.read clock T' c asked := by
  cases asked with
  | queryRecords params =>
    have hsame := fun filter : Filter => (h.sameReads.byFilter { filter with scope := c.scope } rfl).2
    simp only [AppState.read, CoreService.query, hsame]
  | searchRecords params =>
    have hsame := searchRows_congr h halike
    simp only [AppState.read, CoreService.search, searchStructures, hsame]
  | entityRecords kind id params =>
    have hsame := fun id floor window limit => (h.sameReads.byEntity kind id floor window limit).2
    simp only [AppState.read, CoreService.entity, hsame]
  | correlateRecords params =>
    have hsame := fun left right : Filter => fun withinMs =>
      (h.sameReads.correlate { left with scope := c.scope } { right with scope := c.scope } withinMs
        rfl rfl).2
    simp only [AppState.read, CoreService.correlate, hsame]
  | linkedEntities kind id params =>
    cases hasked : params.intoTraversal kind id with
    | error e =>
      have hrefused : ∀ U : Tables, A.read clock U c (.linkedEntities kind id params) = .error e := by
        intro U
        simp only [AppState.read, hasked, bind, Except.bind]
      rw [hrefused, hrefused]
    | ok t =>
      have hlinked : ∀ U : Tables, A.service.linked U c t = (A.service.canonical t.kind t.id).bind
          fun id' => (linkedStructures U { t with id := id', scope := c.scope }).mapError .index :=
        fun _ => rfl
      have hsame : A.service.linked T c t = A.service.linked T' c t := by
        rw [hlinked, hlinked]
        cases hid : A.service.canonical t.kind t.id with
        | error e => simp only [Except.bind]
        | ok id' =>
          obtain ⟨hfrontier, hdegree⟩ := halike t id' hasked hid
          simp only [Except.bind]
          rw [(h.sameReads.linked { t with id := id', scope := c.scope } rfl hfrontier hdegree).2]
      simp only [AppState.read, hasked, bind, Except.bind, hsame]
  | composeBundle params =>
    have hsame := fun request : BundleRequest => fun entities =>
      compose_congr h A.service.wireBytes clock
        (q := { request with entities, scope := c.scope }) rfl
    simp only [AppState.read, CoreService.bundle, hsame]

/-- An index of nothing but a record for operators. -/
def operatorOnly : Tables :=
  { Tables.empty with records := [⟨note.recordId, 1, { note with visibility := .operator }, [], 0, 0⟩] }

theorem reads_depend_on_scope_writer :
    noteState.read (fun _ => 0) operatorOnly (Credential.new "agent".toList .writer []).caller
        (.composeBundle ⟨none, some "agent".toList, none, none⟩) =
      noteState.read (fun _ => 0) .empty (Credential.new "agent".toList .writer []).caller
        (.composeBundle ⟨none, some "agent".toList, none, none⟩) :=
  reads_depend_on_scope noteState _ operatorOnly .empty
    ⟨by decide, fun _ _ _ => rfl, fun _ _ _ => rfl⟩ _ (.composeBundle _) trivial

end

end Yaam.Server
