/-
  When a note is read back as it was written.

  * `renderFact_ok` takes a fact's line apart: its statement and the trail of counts,
    times and sources;
  * `quotes_tick` and `extract_trail`: what positions and links a line has;
  * `parseFact_iff`: a line is read back exactly when its statement is `Clear`;
  * `parse_render_iff`: so is a note.
-/
import Yaam.Core.Resolve
import Yaam.Knowledge.Note

namespace Yaam.Knowledge

open Text Contract Md

/-! ## Lines in parts -/

/-- A text that stands between backticks on one line. -/
structure Quotable (v : Text) : Prop where
  tick : '`' ∉ v
  newline : '\n' ∉ v
  carriage : '\r' ∉ v

/-- An entity that a wikilink spells on one line. -/
structure Linked (e : EntityKey) : Prop where
  linkable : Linkable e.kind e.id
  carriage : '\r' ∉ e.kind ∧ '\r' ∉ e.id

/-- The word a fact's line starts with. -/
def word : Fact → Text
  | .attribute _ _ _ => "attr".toList
  | .actor _ _ => "actor".toList
  | .association _ _ => "link".toList

/-- The part of a fact's line that says what was observed. -/
def statement : Fact → Text
  | .attribute _ key value => tick key ++ (" = ".toList ++ tick value)
  | .actor _ agent => tick agent
  | .association _ other => renderLink other.kind other.id

/-- What the values of a fact that renders are. -/
def Written : Fact → Prop
  | .attribute _ key value => Quotable key ∧ Quotable value
  | .actor _ agent => Quotable agent
  | .association _ other => Linked other

/-- The part of a fact's line after its statement. -/
def trail (h : Held) : Text :=
  " · seen ".toList ++ (tick (padNat 0 h.observations) ++ (fieldSep ++ (tick h.first ++ (spanSep ++
    (tick h.last ++ sourceLinks h.sources)))))

theorem quoted_ok {v q : Text} (h : quoted v = .ok q) : q = tick v ∧ Quotable v := by
  unfold quoted at h
  split_ifs at h with hbad
  push Not at hbad
  exact ⟨(Except.ok.inj h).symm, hbad.1, hbad.2.1, hbad.2.2⟩

theorem link_ok {e : EntityKey} {l : Text} (h : link e = .ok l) :
    l = renderLink e.kind e.id ∧ Linked e := by
  unfold link at h
  split_ifs at h with hk hi hc
  simp only [unlinkable, not_or] at hk hi
  obtain ⟨k1, k2, k3, k4, k5⟩ := hk
  obtain ⟨i1, i2, i3, i4, i5⟩ := hi
  exact ⟨(Except.ok.inj h).symm, ⟨⟨k1, k2, k3, k4⟩, ⟨i1, i2, i3, i4⟩, hc⟩, k5, i5⟩

theorem renderStatement_ok {f : Fact} {l : Text} (h : renderStatement f = .ok l) :
    l = word f ++ ' ' :: statement f ∧ Written f := by
  cases f with
  | «attribute» e key value =>
    obtain ⟨k, hk, h⟩ := bind_ok.1 h
    obtain ⟨v, hv, h⟩ := bind_ok.1 h
    obtain ⟨rfl, hkey⟩ := quoted_ok hk
    obtain ⟨rfl, hvalue⟩ := quoted_ok hv
    cases h
    exact ⟨by simp [word, statement], hkey, hvalue⟩
  | actor e agent =>
    obtain ⟨a, ha, h⟩ := bind_ok.1 h
    obtain ⟨rfl, hagent⟩ := quoted_ok ha
    cases h
    exact ⟨by simp [word, statement], hagent⟩
  | association e other =>
    obtain ⟨o, ho, h⟩ := bind_ok.1 h
    obtain ⟨rfl, hother⟩ := link_ok ho
    cases h
    exact ⟨by simp [word, statement], hother⟩

/-- The line of a fact that renders, in its parts. -/
theorem renderFact_ok {h : Held} {l : Text} (hl : renderFact h = .ok l) :
    l = "- ".toList ++ (word h.fact ++ ' ' :: (statement h.fact ++ trail h)) ∧ Written h.fact ∧
      Quotable h.first ∧ Quotable h.last := by
  obtain ⟨s, hs, hl⟩ := bind_ok.1 hl
  obtain ⟨n, hn, hl⟩ := bind_ok.1 hl
  obtain ⟨first, hf, hl⟩ := bind_ok.1 hl
  obtain ⟨last, hla, hl⟩ := bind_ok.1 hl
  obtain ⟨rfl, hwritten⟩ := renderStatement_ok hs
  obtain ⟨rfl, -⟩ := quoted_ok hn
  obtain ⟨rfl, hfirst⟩ := quoted_ok hf
  obtain ⟨rfl, hlast⟩ := quoted_ok hla
  cases hl
  refine ⟨?_, hwritten, hfirst, hlast⟩
  simp [trail, fieldSep]

/-! ## Positions -/

theorem everyOther_cons {α : Type} (a b : α) (as : List α) :
    everyOther (a :: b :: as) = a :: everyOther as := rfl

theorem quotes_of_notMem {t : Text} (h : '`' ∉ t) : quotes t = [] := by
  rw [quotes, splitOn_of_notMem h]
  rfl

/-- **A quoted span is the next field**, whatever stands in front of it. -/
theorem quotes_tick {p q : Text} (hp : '`' ∉ p) (hq : '`' ∉ q) (t : Text) :
    quotes (p ++ '`' :: (q ++ '`' :: t)) = q :: quotes t := by
  obtain ⟨x, parts, hx⟩ := List.exists_cons_of_ne_nil (splitOn_ne_nil '`' t)
  rw [quotes, quotes, splitOn_append_cons hp, splitOn_append_cons hq, hx]
  simp only [List.length_cons]
  have hmod : (parts.length + 1 + 1 + 1) % 2 = (parts.length + 1) % 2 := by omega
  rw [hmod]
  split_ifs with heven
  · obtain ⟨n, hn⟩ : ∃ n, parts.length = n + 1 := ⟨parts.length - 1, by omega⟩
    rw [hn]
    rfl
  · rfl

theorem everyOther_length {α : Type} (as : List α) : (everyOther as).length = (as.length + 1) / 2 := by
  induction as using everyOther.induct with
  | case1 => simp [everyOther]
  | case2 => simp [everyOther]
  | case3 a b as ih =>
    rw [everyOther_cons, List.length_cons, ih]
    simp only [List.length_cons]
    omega

theorem length_splitOn (sep : Char) (t : Text) : (splitOn sep t).length = t.count sep + 1 := by
  induction t with
  | nil => rfl
  | cons c t ih =>
    obtain ⟨x, parts, hx⟩ := List.exists_cons_of_ne_nil (splitOn_ne_nil sep t)
    by_cases hc : c = sep
    · rw [splitOn_cons, if_pos hc, List.length_cons, ih, hc, List.count_cons_self]
    · rw [splitOn_cons, if_neg hc, hx, List.count_cons_of_ne (fun h => hc h), ← ih, hx]
      rfl

/-- A line has half as many fields as backticks. -/
theorem quotes_length (t : Text) : (quotes t).length = t.count '`' / 2 := by
  rw [quotes, everyOther_length, List.length_drop, List.length_take, length_splitOn]
  split_ifs
  · omega
  · omega

/-! ## Trails -/

theorem notMem_padNat {c : Char} (hc : c.isDigit = false) (w n : ℕ) : c ∉ padNat w n := by
  intro h
  rw [mem_padNat h] at hc
  cases hc

theorem notMem_recordId {c : Char} (hc : isCrockfordDigit c = false) (id : RecordId) : c ∉ id.text := by
  intro h
  have hcanon := id.canonical
  rw [isRecordId, Bool.and_eq_true, List.all_eq_true] at hcanon
  rw [hcanon.2 c h] at hc
  cases hc

theorem notMem_stamp {c : Char} {t : Text} (hc : stampChar c = false) (h : parseMs t ≠ none) : c ∉ t := by
  intro hm
  rw [parseMs_chars h c hm] at hc
  cases hc

theorem linkable_record (id : RecordId) : Linkable "record".toList id.text :=
  ⟨⟨by decide, by decide, by decide, by decide⟩,
    ⟨id.text_ne_nil, notMem_recordId (by decide) id, notMem_recordId (by decide) id,
      notMem_recordId (by decide) id⟩, by decide⟩

theorem extract_sourceLinks (sources : List RecordId) :
    extract (sourceLinks sources) = sources.map fun s => ("record".toList, s.text) := by
  induction sources with
  | nil => rfl
  | cons s sources ih =>
    have hcons : sourceLinks (s :: sources) =
        fieldSep ++ (renderLink "record".toList s.text ++ sourceLinks sources) := by
      simp [sourceLinks]
    rw [hcons, extract_skip (by decide), extract_renderLink (linkable_record s), ih]
    rfl

/-- What sources are spelled with. -/
theorem mem_sourceLinks {c : Char} {sources : List RecordId} (h : c ∈ sourceLinks sources) :
    c ∈ fieldSep ++ "[[record:]]".toList ∨ isCrockfordDigit c = true := by
  obtain ⟨s, -, hm⟩ := List.mem_flatMap.1 h
  have hid : c ∈ s.text → isCrockfordDigit c = true := by
    have hcanon := s.canonical
    rw [isRecordId, Bool.and_eq_true, List.all_eq_true] at hcanon
    exact hcanon.2 c
  by_cases hc : c ∈ s.text
  · exact .inr (hid hc)
  · refine .inl ?_
    simp only [renderLink, List.mem_append, List.mem_cons, hc, or_false] at hm ⊢
    rcases hm with h1 | ((h2 | h3) | h4) | h5
    · exact .inl h1
    · exact .inr (by simp at h2; simp [h2])
    · exact .inr (by simp at h3 ⊢; tauto)
    · exact .inr (by simp [h4])
    · exact .inr (by simp at h5; simp [h5])

/-- What a trail holds before its sources. -/
def trailHead (h : Held) : Text :=
  " · seen ".toList ++ (tick (padNat 0 h.observations) ++ (fieldSep ++ (tick h.first ++ (spanSep ++
    tick h.last))))

theorem trail_eq (h : Held) : trail h = trailHead h ++ sourceLinks h.sources := by
  simp [trail, trailHead]

/-- A fact's times are those of records. -/
structure Timed (h : Held) : Prop where
  first : parseMs h.first ≠ none
  last : parseMs h.last ≠ none

theorem notMem_trailHead {c : Char} {h : Held} (ht : Timed h) (hc : c = '[' ∨ c = ']' ∨ c = '\n') :
    c ∉ trailHead h := by
  have hdigit : c.isDigit = false := by rcases hc with rfl | rfl | rfl <;> rfl
  have hstamp : stampChar c = false := by rcases hc with rfl | rfl | rfl <;> decide
  have hlit : c ∉ " · seen ".toList ∧ c ∉ fieldSep ∧ c ∉ spanSep ∧ c ≠ '`' := by
    rcases hc with rfl | rfl | rfl <;> decide
  have htick : ∀ {v : Text}, c ∉ v → c ∉ tick v := by
    intro v hv
    simp [tick, hv, hlit.2.2.2]
  simp only [trailHead, List.mem_append, not_or]
  exact ⟨hlit.1, htick (notMem_padNat hdigit 0 _), hlit.2.1, htick (notMem_stamp hstamp ht.first),
    hlit.2.2.1, htick (notMem_stamp hstamp ht.last)⟩

/-- **The links of a trail are its sources.** -/
theorem extract_trail {h : Held} (ht : Timed h) :
    extract (trail h) = h.sources.map fun s => ("record".toList, s.text) := by
  rw [trail_eq, extract_skip (notMem_trailHead ht (.inl rfl)), extract_sourceLinks]

theorem splitClose_eq_none {t : Text} (h : ']' ∉ t) : splitClose t = none := by
  induction t with
  | nil => rfl
  | cons c t ih =>
    simp only [List.mem_cons, not_or] at h
    rw [splitClose_cons fun hc => h.1 hc.1.symm, ih h.2]
    rfl

theorem detached_trail {h : Held} (ht : Timed h) : Detached (trail h) := by
  have hhead : (trail h).head? = some ' ' := rfl
  refine ⟨by rw [hhead]; decide, by rw [hhead]; decide, fun inner rest hs => ?_⟩
  have hno := notMem_trailHead ht (.inr (.inl rfl))
  rw [trail_eq] at hs
  cases hsources : h.sources with
  | nil =>
    rw [hsources, sourceLinks, List.flatMap_nil, List.append_nil, splitClose_eq_none hno] at hs
    cases hs
  | cons s sources =>
    have hshape : trailHead h ++ sourceLinks (s :: sources) =
        (trailHead h ++ (fieldSep ++ ("[[record:".toList ++ s.text))) ++
          ']' :: ']' :: sourceLinks sources := by
      simp [sourceLinks, renderLink]
    have hinner : ']' ∉ trailHead h ++ (fieldSep ++ ("[[record:".toList ++ s.text)) := by
      simp only [List.mem_append, not_or]
      exact ⟨hno, by decide, by decide, notMem_recordId (by decide) s⟩
    rw [hsources, hshape, splitClose_of_notMem hinner] at hs
    obtain ⟨rfl, -⟩ := Prod.mk.inj (Option.some.inj hs)
    simp

/-! ## Statements -/

/-- A statement that keeps its fields to itself: what is quoted holds no wikilink, what
    is linked no backtick. -/
def Clear : Fact → Prop
  | .attribute _ key value => extract (tick key ++ (" = ".toList ++ tick value)) = []
  | .actor _ agent => extract (tick agent) = []
  | .association _ other => '`' ∉ other.kind ∧ '`' ∉ other.id

instance (f : Fact) : Decidable (Clear f) := by
  cases f <;> unfold Clear <;> infer_instance

theorem tick_eq (v : Text) : tick v = '`' :: (v ++ ['`']) := rfl

/-- The fields of a trail. -/
theorem quotes_trail {h : Held} (hf : Quotable h.first) (hl : Quotable h.last) {p : Text}
    (hp : '`' ∉ p) : quotes (p ++ trail h) = [padNat 0 h.observations, h.first, h.last] := by
  have hsources : '`' ∉ sourceLinks h.sources := fun hm => by
    rcases mem_sourceLinks hm with h1 | h1
    · exact absurd h1 (by decide)
    · exact absurd h1 (by decide)
  have hshape : p ++ trail h = (p ++ " · seen ".toList) ++ '`' :: (padNat 0 h.observations ++ '`' ::
      (fieldSep ++ '`' :: (h.first ++ '`' :: (spanSep ++ '`' :: (h.last ++ '`' ::
        sourceLinks h.sources))))) := by
    simp [trail, tick]
  have hstart : '`' ∉ p ++ " · seen ".toList := by
    rw [List.mem_append, not_or]
    exact ⟨hp, by decide⟩
  rw [hshape, quotes_tick hstart (notMem_padNat (by decide) 0 _), quotes_tick (by decide) hf.tick,
    quotes_tick (by decide) hl.tick, quotes_of_notMem hsources]

/-- The fields of a line whose values are quoted. -/
theorem quotes_line {h : Held} (hf : Quotable h.first) (hl : Quotable h.last)
    (hw : Written h.fact) : quotes (statement h.fact ++ trail h) =
      (match h.fact with
        | .attribute _ key value => [key, value, padNat 0 h.observations, h.first, h.last]
        | .actor _ agent => [agent, padNat 0 h.observations, h.first, h.last]
        | .association _ other => quotes (renderLink other.kind other.id ++ trail h)) := by
  have htrail := quotes_trail hf hl (p := []) List.not_mem_nil
  rw [List.nil_append] at htrail
  cases hfact : h.fact with
  | «attribute» e key value =>
    rw [hfact] at hw
    have hshape : statement (.attribute e key value) ++ trail h =
        [] ++ '`' :: (key ++ '`' :: (" = ".toList ++ '`' :: (value ++ '`' :: trail h))) := by
      simp [statement, tick]
    rw [hshape, quotes_tick List.not_mem_nil hw.1.tick, quotes_tick (by decide) hw.2.tick, htrail]
  | actor e agent =>
    rw [hfact] at hw
    have hshape : statement (.actor e agent) ++ trail h = [] ++ '`' :: (agent ++ '`' :: trail h) := by
      simp [statement, tick]
    have hagent : Quotable agent := hw
    rw [hshape, quotes_tick List.not_mem_nil hagent.tick, htrail]
  | association e other => rfl

/-- The sources of a line read back. -/
theorem mapM_parseSource (body : Text) (sources : List RecordId) :
    (sources.map fun s => ("record".toList, s.text)).mapM (parseSource body) = .ok sources := by
  induction sources with
  | nil => rfl
  | cons s sources ih =>
    have hone : parseSource body ("record".toList, s.text) = .ok s := by
      rw [parseSource, if_neg (by simp), RecordId.parse_text]
      rfl
    rw [List.map_cons, List.mapM_cons, hone, ih]
    rfl

theorem parseCount_padNat (n : ℕ) : parseCount (padNat 0 n) = some n := by
  have hdigits : (padNat 0 n).all isDigit = true := by
    rw [List.all_eq_true]
    intro c hc
    have := mem_padNat hc
    simp only [Char.isDigit, Bool.and_eq_true, decide_eq_true_eq] at this
    simp only [isDigit, Bool.and_eq_true, decide_eq_true_eq]
    exact ⟨this.1, this.2⟩
  have hne : padNat 0 n ≠ [] := by simp [padNat, Nat.toDigits_ne_nil]
  have hplus : stripPrefix ['+'] (padNat 0 n) = none := by
    cases hs : stripPrefix ['+'] (padNat 0 n) with
    | none => rfl
    | some t =>
      have hm : '+' ∈ padNat 0 n := by
        rw [stripPrefix_eq_some hs]
        simp
      exact absurd (mem_padNat hm) (by decide)
  rw [parseCount, hplus]
  simp only [Option.getD_none, hdigits, hne, ne_eq, not_false_eq_true, and_self, if_true,
    number_padNat]

/-- A text that holds more than a number is no count. -/
theorem parseCount_eq_none {t : Text} {c : Char} (hm : c ∈ t) (hd : isDigit c = false) (hp : c ≠ '+') :
    parseCount t = none := by
  have hrest : c ∈ (stripPrefix ['+'] t).getD t := by
    cases hs : stripPrefix ['+'] t with
    | none => exact hm
    | some u =>
      rw [stripPrefix_eq_some hs, List.mem_append] at hm
      exact hm.resolve_left fun h => hp (List.mem_singleton.1 h)
  rw [parseCount, if_neg]
  rintro ⟨-, hall⟩
  rw [List.all_eq_true.1 hall c hrest] at hd
  cases hd

theorem length_of_mapM {ε α β : Type} {f : α → Except ε β} {xs : List α} {ys : List β}
    (h : xs.mapM f = .ok ys) : ys.length = xs.length := by
  induction xs generalizing ys with
  | nil =>
    cases h
    rfl
  | cons x xs ih =>
    rw [List.mapM_cons] at h
    obtain ⟨y, -, h⟩ := bind_ok.1 h
    obtain ⟨zs, hzs, h⟩ := bind_ok.1 h
    cases h
    rw [List.length_cons, List.length_cons, ih hzs]

theorem space_notMem_word (f : Fact) : ' ' ∉ word f := by
  cases f <;> simp [word]

/-- What is read of a line, from its fields and its links. -/
theorem parseFact_eq {e : EntityKey} {f : Fact} {rest : Text} {wanted entities : ℕ}
    (hcounts : fieldCounts (word f) = some (wanted, entities)) (hlen : (quotes rest).length = wanted)
    (hlinks : entities ≤ (extract rest).length) : parseFact e (word f ++ ' ' :: rest) =
      match parseCount ((quotes rest).getD (wanted - 3) []) with
      | none => .error (.unreadable
          s!"`{String.ofList ((quotes rest).getD (wanted - 3) [])}` is not an observation count")
      | some observations =>
        ((extract rest).drop entities).mapM (parseSource (word f ++ ' ' :: rest)) >>= fun sources =>
          .ok ⟨parseStatement e (word f) (quotes rest) (extract rest), observations,
            (quotes rest).getD (wanted - 2) [], (quotes rest).getD (wanted - 1) [], sources⟩ := by
  have hno : ¬ ((quotes rest).length ≠ wanted ∨ (extract rest).length < entities) := by
    rw [not_or, not_not]
    exact ⟨hlen, Nat.not_lt.2 hlinks⟩
  simp only [parseFact, splitOnce_append_cons (space_notMem_word f), hcounts]
  exact if_neg hno

section
variable {h : Held} {e : EntityKey}

theorem extract_line (ht : Timed h) : extract (statement h.fact ++ trail h) =
    extract (statement h.fact) ++ h.sources.map fun s => ("record".toList, s.text) := by
  rw [extract_append (detached_trail ht), extract_trail ht]

/-- A line whose values are quoted is read back exactly when they hold no wikilink. -/
theorem parseFact_quoted (fields : List Text) (ht : Timed h)
    (hcounts : fieldCounts (word h.fact) = some (fields.length + 3, 0))
    (hquotes : quotes (statement h.fact ++ trail h) =
      fields ++ [padNat 0 h.observations, h.first, h.last])
    (hfact : ∀ links, parseStatement e (word h.fact)
      (fields ++ [padNat 0 h.observations, h.first, h.last]) links = h.fact) :
    parseFact e (word h.fact ++ ' ' :: (statement h.fact ++ trail h)) = .ok h ↔
      extract (statement h.fact) = [] := by
  have hlen : (quotes (statement h.fact ++ trail h)).length = fields.length + 3 := by
    rw [hquotes]
    simp
  have hat : ∀ i x, [padNat 0 h.observations, h.first, h.last][i]? = some x →
      (fields ++ [padNat 0 h.observations, h.first, h.last]).getD (fields.length + i) [] = x := by
    intro i x hx
    rw [List.getD_eq_getElem?_getD, List.getElem?_append_right (by omega), Nat.add_sub_cancel_left, hx]
    rfl
  have hcount := hat 0 _ rfl
  have hfirst := hat 1 _ rfl
  have hlast := hat 2 _ rfl
  rw [parseFact_eq hcounts hlen (Nat.zero_le _), hquotes, extract_line ht]
  simp only [Nat.add_sub_cancel, Nat.add_zero] at hcount ⊢
  rw [hcount, parseCount_padNat, show fields.length + 3 - 2 = fields.length + 1 by omega,
    show fields.length + 3 - 1 = fields.length + 2 by omega, hfirst, hlast, hfact, List.drop_zero]
  constructor
  · intro hok
    obtain ⟨sources, hsources, hok⟩ := bind_ok.1 hok
    have heq : sources = h.sources := congrArg Held.sources (Except.ok.inj hok)
    have hlength := length_of_mapM hsources
    rw [heq, List.length_append, List.length_map] at hlength
    exact List.length_eq_zero_iff.1 (by omega)
  · intro hnone
    rw [hnone, List.nil_append, mapM_parseSource]
    rfl

theorem count_tick_trail (hf : Quotable h.first) (hl : Quotable h.last) :
    (trail h).count '`' = 6 := by
  have hno : ∀ {t : Text}, '`' ∉ t → t.count '`' = 0 := fun ht => List.count_eq_zero.2 ht
  have hsources : '`' ∉ sourceLinks h.sources := fun hm => by
    rcases mem_sourceLinks hm with h1 | h1
    · exact absurd h1 (by decide)
    · exact absurd h1 (by decide)
  have htick : ∀ {v : Text}, '`' ∉ v → (tick v).count '`' = 2 := by
    intro v hv
    simp [tick, List.count_append, hno hv]
  rw [trail]
  simp only [List.count_append, htick (notMem_padNat (by decide) 0 _), htick hf.tick, htick hl.tick,
    hno hsources]
  decide

/-- A line that links an entity is read back exactly when the entity holds no backtick. -/
theorem parseFact_association {e other : EntityKey} (hfact : h.fact = .association e other)
    (ht : Timed h) (hf : Quotable h.first) (hl : Quotable h.last) (hw : Linked other) :
    parseFact e (word h.fact ++ ' ' :: (statement h.fact ++ trail h)) = .ok h ↔
      '`' ∉ other.kind ∧ '`' ∉ other.id := by
  have hlinks : extract (statement h.fact ++ trail h) = (other.kind, other.id) ::
      h.sources.map fun s => ("record".toList, s.text) := by
    rw [hfact, statement, extract_renderLink hw.linkable, extract_trail ht]
  have hcounts : fieldCounts (word h.fact) = some (3, 1) := by
    rw [hfact]
    rfl
  have hone : 1 ≤ (extract (statement h.fact ++ trail h)).length := by
    rw [hlinks]
    simp
  have hmem : '`' ∈ statement h.fact ↔ '`' ∈ other.kind ∨ '`' ∈ other.id := by
    rw [hfact]
    simp [statement, renderLink]
  have hcount : (quotes (statement h.fact ++ trail h)).length =
      ((statement h.fact).count '`' + 6) / 2 := by
    rw [quotes_length, List.count_append, count_tick_trail hf hl]
  constructor
  · intro hok
    by_contra hbad
    have htick : '`' ∈ statement h.fact := hmem.2 (by tauto)
    have hpos := List.count_pos_iff.2 htick
    by_cases h3 : (quotes (statement h.fact ++ trail h)).length = 3
    · -- one backtick: what follows it in the link is read as the count
      have hcount1 : (statement h.fact).count '`' = 1 := by omega
      obtain ⟨a, b, hab⟩ := List.append_of_mem htick
      rw [hab, List.count_append, List.count_cons_self] at hcount1
      have ha : '`' ∉ a := List.count_eq_zero.1 (by omega)
      have hb : '`' ∉ b := List.count_eq_zero.1 (by omega)
      have hquotes : (quotes (statement h.fact ++ trail h)).getD 0 [] = b ++ " · seen ".toList := by
        have hshape : statement h.fact ++ trail h = a ++ '`' :: ((b ++ " · seen ".toList) ++ '`' ::
            (padNat 0 h.observations ++ '`' :: (fieldSep ++ (tick h.first ++ (spanSep ++
              (tick h.last ++ sourceLinks h.sources)))))) := by
          rw [hab]
          simp [trail, tick]
        have hbseen : '`' ∉ b ++ " · seen ".toList := by
          rw [List.mem_append, not_or]
          exact ⟨hb, by decide⟩
        rw [hshape, quotes_tick ha hbseen]
        rfl
      have hnone : parseCount (b ++ " · seen ".toList) = none :=
        parseCount_eq_none (c := ' ') (by simp) (by decide) (by decide)
      rw [parseFact_eq hcounts h3 hone, hquotes, hnone] at hok
      cases hok
    · simp only [parseFact, splitOnce_append_cons (space_notMem_word _), hcounts,
        if_pos (Or.inl h3)] at hok
      cases hok
  · rintro ⟨hk, hi⟩
    have hno : '`' ∉ statement h.fact := fun hm => (hmem.1 hm).elim hk hi
    have hquotes := quotes_trail hf hl hno
    rw [parseFact_eq hcounts (by rw [hquotes]; rfl) hone, hquotes, hlinks]
    simp only [List.drop_one, List.tail_cons]
    rw [show [padNat 0 h.observations, h.first, h.last].getD (3 - 3) [] = padNat 0 h.observations from
      rfl, parseCount_padNat, mapM_parseSource]
    obtain ⟨fact, n, first, last, sources⟩ := h
    obtain rfl : fact = .association e other := hfact
    rfl

/-- **A line is read back exactly when its statement keeps its fields to itself.** -/
theorem parseFact_iff (he : h.fact.entity = e) (hw : Written h.fact) (hf : Quotable h.first)
    (hl : Quotable h.last) (ht : Timed h) :
    parseFact e (word h.fact ++ ' ' :: (statement h.fact ++ trail h)) = .ok h ↔ Clear h.fact := by
  have hquotes := quotes_line hf hl hw
  cases hfact : h.fact with
  | «attribute» e' key value =>
    obtain rfl : e' = e := by rw [← he, hfact]; rfl
    rw [hfact] at hquotes
    have := parseFact_quoted (h := h) (e := e') [key, value] ht (by rw [hfact]; rfl)
      (by rw [hfact]; exact hquotes) (fun links => by rw [hfact]; rfl)
    rw [hfact] at this
    exact this
  | actor e' agent =>
    obtain rfl : e' = e := by rw [← he, hfact]; rfl
    rw [hfact] at hquotes
    have := parseFact_quoted (h := h) (e := e') [agent] ht (by rw [hfact]; rfl)
      (by rw [hfact]; exact hquotes) (fun links => by rw [hfact]; rfl)
    rw [hfact] at this
    exact this
  | association e' other =>
    obtain rfl : e' = e := by rw [← he, hfact]; rfl
    rw [hfact] at hw
    have := parseFact_association hfact ht hf hl hw
    rw [hfact] at this
    exact this

end

/-! ## Notes -/

theorem mem_held_times {f : Fact} {seen : List Observation} (hne : seen ≠ [])
    (hseen : ∀ o ∈ seen, parseMs o.at_ ≠ none) : Timed (held f seen) := by
  have hsorted : seen.insertionSort newerFirst ≠ [] := fun h => hne (by
    rw [← List.length_eq_zero_iff, List.length_insertionSort] at h
    exact List.length_eq_zero_iff.1 h)
  have hmem : ∀ o ∈ seen.insertionSort newerFirst, parseMs o.at_ ≠ none := fun o ho =>
    hseen o ((List.mem_insertionSort _).1 ho)
  constructor
  · show parseMs (((seen.insertionSort newerFirst).getLast?.map (·.at_)).getD []) ≠ none
    rw [List.getLast?_eq_some_getLast hsorted]
    exact hmem _ (List.getLast_mem hsorted)
  · show parseMs (((seen.insertionSort newerFirst).head?.map (·.at_)).getD []) ≠ none
    rw [List.head?_eq_some_head hsorted]
    exact hmem _ (List.head_mem hsorted)

/-- **What a collated note holds** is about its entity, at readable times. -/
theorem collate_spec {os : List Observation} (hos : ∀ o ∈ os, parseMs o.at_ ≠ none) {n : Note}
    (hn : n ∈ collate os) : ∀ h ∈ n.facts, h.fact.entity = n.entity ∧ Timed h := by
  obtain ⟨e, -, rfl⟩ := List.mem_map.1 hn
  intro h hh
  obtain ⟨f, hf, rfl⟩ := List.mem_map.1 hh
  rw [List.mem_insertionSort, List.mem_dedup, List.mem_filter] at hf
  obtain ⟨hf, he⟩ := hf
  obtain ⟨o, ho, rfl⟩ := List.mem_map.1 hf
  refine ⟨of_decide_eq_true he, mem_held_times ?_ fun o' ho' => hos o' (List.mem_filter.1 ho').1⟩
  exact List.ne_nil_of_mem (List.mem_filter.2 ⟨ho, by simp⟩)

/-- The line of a fact without its dash. -/
def factLine (h : Held) : Text := word h.fact ++ ' ' :: (statement h.fact ++ trail h)

/-- What rendering a fact makes sure of. -/
structure Rendered (h : Held) : Prop where
  written : Written h.fact
  first : Quotable h.first
  last : Quotable h.last

theorem mapM_renderFact {hs : List Held} {ls : List Text} (h : hs.mapM renderFact = .ok ls) :
    ls = hs.map (fun h => "- ".toList ++ factLine h) ∧ ∀ h ∈ hs, Rendered h := by
  induction hs generalizing ls with
  | nil =>
    cases h
    exact ⟨rfl, nofun⟩
  | cons x hs ih =>
    rw [List.mapM_cons] at h
    obtain ⟨l, hl, h⟩ := bind_ok.1 h
    obtain ⟨ls', hls, h⟩ := bind_ok.1 h
    cases h
    obtain ⟨rfl, hx1, hx2, hx3⟩ := renderFact_ok hl
    obtain ⟨rfl, hall⟩ := ih hls
    exact ⟨rfl, List.forall_mem_cons.2 ⟨⟨hx1, hx2, hx3⟩, hall⟩⟩

/-- A fact's line is one line. -/
theorem notMem_factLine {h : Held} (hr : Rendered h) {c : Char}
    (hc : c = '\n' ∨ c = '\r') : c ∉ factLine h := by
  have hlit : c ∉ "attr".toList ∧ c ∉ "actor".toList ∧ c ∉ "link".toList ∧ c ≠ ' ' ∧ c ≠ '`' ∧
      c ∉ " = ".toList ∧ c ∉ " · seen ".toList ∧ c ∉ fieldSep ∧ c ∉ spanSep ∧
      c ∉ fieldSep ++ "[[record:]]".toList ∧ c ∉ "[[".toList ∧ c ∉ "]]".toList ∧ c ≠ ':' := by
    rcases hc with rfl | rfl <;> decide
  obtain ⟨h1, h2, h3, h4, h5, h6, h7, h8, h9, h10, h11, h12, h13⟩ := hlit
  have hcrock : isCrockfordDigit c = false := by rcases hc with rfl | rfl <;> decide
  have hquot : ∀ {v : Text}, Quotable v → c ∉ v := by
    intro v hv
    rcases hc with rfl | rfl
    · exact hv.newline
    · exact hv.carriage
  have htick : ∀ {v : Text}, c ∉ v → c ∉ tick v := by
    intro v hv
    simp [tick, hv, h5]
  have hword : c ∉ word h.fact := by
    cases h.fact
    · exact h1
    · exact h2
    · exact h3
  have hstatement : c ∉ statement h.fact := by
    have hw := hr.written
    cases hfact : h.fact with
    | «attribute» e key value =>
      rw [hfact] at hw
      simp only [statement, List.mem_append, not_or]
      exact ⟨htick (hquot hw.1), h6, htick (hquot hw.2)⟩
    | actor e agent =>
      rw [hfact] at hw
      exact htick (hquot hw)
    | association e other =>
      rw [hfact] at hw
      have hw' : Linked other := hw
      have hparts : c ∉ other.kind ∧ c ∉ other.id := by
        rcases hc with rfl | rfl
        · exact ⟨hw'.linkable.kind_ok.2.2.2, hw'.linkable.id_ok.2.2.2⟩
        · exact hw'.carriage
      simp only [statement, renderLink, List.mem_append, List.mem_cons, not_or]
      exact ⟨⟨⟨h11, hparts.1⟩, h13, hparts.2⟩, h12⟩
  have hsources : c ∉ sourceLinks h.sources := fun hm => by
    rcases mem_sourceLinks hm with h | h
    · exact h10 h
    · rw [hcrock] at h
      cases h
  have hdigit : c.isDigit = false := by rcases hc with rfl | rfl <;> rfl
  simp only [factLine, trail, List.mem_append, List.mem_cons, not_or]
  exact ⟨hword, h4, hstatement, h7, htick (notMem_padNat hdigit 0 _), h8, htick (hquot hr.first), h9,
    htick (hquot hr.last), hsources⟩

theorem lines_unlines {ls : List Text} (h : ∀ l ∈ ls, '\n' ∉ l ∧ '\r' ∉ l) : lines (unlines ls) = ls := by
  induction ls with
  | nil => rfl
  | cons l ls ih =>
    obtain ⟨hn, hr⟩ := h l (by simp)
    have hchomp : chompCr l = l := chompCr_of_getLast? fun hl => hr (List.mem_of_getLast? hl)
    have hcons : unlines (l :: ls) = (l ++ ['\n']) ++ unlines ls := rfl
    rw [hcons, lines_append (atLineStart_append_newline l), lines_line hn, hchomp,
      ih fun k hk => h k (by simp [hk])]
    rfl

/-- Reading the lines of facts gives those facts exactly when each line does. -/
theorem mapM_factLine {g : Text → Except Error Held} {hs : List Held} :
    (hs.map factLine).mapM g = .ok hs ↔ ∀ h ∈ hs, g (factLine h) = .ok h := by
  induction hs with
  | nil => simp [pure, Except.pure]
  | cons x hs ih =>
    rw [List.map_cons, List.mapM_cons, List.forall_mem_cons, ← ih, bind_ok]
    constructor
    · rintro ⟨y, hy, h⟩
      obtain ⟨ys, hys, h⟩ := bind_ok.1 h
      obtain ⟨rfl, rfl⟩ := List.cons.inj (Except.ok.inj h)
      exact ⟨hy, hys⟩
    · rintro ⟨hy, hys⟩
      exact ⟨x, hy, by rw [hys]; rfl⟩

/-- The text of a note that renders. -/
theorem render_ok {n : Note} {t : Text} (h : n.render = .ok t) :
    t = unlines (("# ".toList ++ renderLink n.entity.kind n.entity.id) :: [] :: preamble :: [] ::
      n.facts.map fun h => "- ".toList ++ factLine h) ∧ Linked n.entity ∧
        ∀ h ∈ n.facts, Rendered h := by
  obtain ⟨heading, hh, h⟩ := bind_ok.1 h
  obtain ⟨ls, hls, h⟩ := bind_ok.1 h
  obtain ⟨rfl, hlinked⟩ := link_ok hh
  obtain ⟨rfl, hrendered⟩ := mapM_renderFact hls
  cases h
  exact ⟨by simp [unlines], hlinked, hrendered⟩

theorem soleEntity_renderLink {e : EntityKey} (h : Linked e) :
    soleEntity (renderLink e.kind e.id) = .ok e := by
  have hext := extract_renderLink h.linkable []
  rw [List.append_nil] at hext
  rw [soleEntity, hext]
  rfl

/-- **A note that renders is read back exactly when each of its facts keeps its fields to
    itself**: the quoted values hold no wikilink, the linked entities no backtick. -/
theorem parse_render_iff (rs : List ActionRecord) (n : Note) (t : Text)
    (hn : n ∈ collate (observe rs)) (h : n.render = .ok t) :
    Note.parse t = .ok n ↔ ∀ h ∈ n.facts, Clear h.fact := by
  obtain ⟨rfl, hlinked, hrendered⟩ := render_ok h
  have htimes : ∀ o ∈ observe rs, parseMs o.at_ ≠ none := fun o ho => by
    obtain ⟨r, -, -, -, -, htime, -⟩ := observe_spec ho
    exact htime
  have hspec := collate_spec htimes hn
  have hheading : ∀ c, c = '\n' ∨ c = '\r' →
      c ∉ "# ".toList ++ renderLink n.entity.kind n.entity.id := by
    intro c hc
    have hlit : c ∉ "# ".toList ∧ c ∉ "[[".toList ∧ c ≠ ':' ∧ c ∉ "]]".toList := by
      rcases hc with rfl | rfl <;> decide
    have hparts : c ∉ n.entity.kind ∧ c ∉ n.entity.id := by
      rcases hc with rfl | rfl
      · exact ⟨hlinked.linkable.kind_ok.2.2.2, hlinked.linkable.id_ok.2.2.2⟩
      · exact hlinked.carriage
    simp only [renderLink, List.mem_append, List.mem_cons, not_or]
    exact ⟨hlit.1, ⟨⟨hlit.2.1, hparts.1⟩, hlit.2.2.1, hparts.2⟩, hlit.2.2.2⟩
  have hlines : ∀ l ∈ ("# ".toList ++ renderLink n.entity.kind n.entity.id) :: [] :: preamble :: [] ::
      n.facts.map (fun h => "- ".toList ++ factLine h), '\n' ∉ l ∧ '\r' ∉ l := by
    simp only [List.forall_mem_cons, List.not_mem_nil, not_false_eq_true, and_self, true_and]
    refine ⟨⟨hheading _ (.inl rfl), hheading _ (.inr rfl)⟩, by decide, fun l hl => ?_⟩
    obtain ⟨h, hh, rfl⟩ := List.mem_map.1 hl
    simp only [List.mem_append, not_or]
    exact ⟨⟨by decide, notMem_factLine (hrendered h hh) (.inl rfl)⟩,
      ⟨by decide, notMem_factLine (hrendered h hh) (.inr rfl)⟩⟩
  have hbodies : ([] :: preamble :: [] :: n.facts.map (fun h => "- ".toList ++ factLine h)).filterMap
      (stripPrefix "- ".toList) = n.facts.map factLine := by
    have hblank : stripPrefix "- ".toList [] = none := rfl
    have hpre : stripPrefix "- ".toList preamble = none := rfl
    have hstrip : (stripPrefix "- ".toList ∘ fun h => "- ".toList ++ factLine h) = some ∘ factLine :=
      funext fun h => stripPrefix_append _ _
    rw [List.filterMap_cons_none hblank, List.filterMap_cons_none hpre, List.filterMap_cons_none hblank,
      List.filterMap_map, hstrip, List.filterMap_eq_map]
  have hparse : Note.parse (unlines (("# ".toList ++ renderLink n.entity.kind n.entity.id) :: [] ::
      preamble :: [] :: n.facts.map fun h => "- ".toList ++ factLine h)) =
        ((n.facts.map factLine).mapM (parseFact n.entity) >>= fun facts => .ok ⟨n.entity, facts⟩) := by
    rw [Note.parse, lines_unlines hlines]
    simp only [stripPrefix_append, soleEntity_renderLink hlinked, parseFacts, hbodies]
    rfl
  have hfacts : Note.parse (unlines (("# ".toList ++ renderLink n.entity.kind n.entity.id) :: [] ::
      preamble :: [] :: n.facts.map fun h => "- ".toList ++ factLine h)) = .ok n ↔
        (n.facts.map factLine).mapM (parseFact n.entity) = .ok n.facts := by
    rw [hparse, bind_ok]
    constructor
    · rintro ⟨facts, hf, hok⟩
      rw [hf, ← congrArg Note.facts (Except.ok.inj hok)]
    · intro hf
      exact ⟨n.facts, hf, rfl⟩
  rw [hfacts, mapM_factLine]
  have hone : ∀ h ∈ n.facts, (parseFact n.entity (factLine h) = .ok h ↔ Clear h.fact) := fun h hh =>
    parseFact_iff (hspec h hh).1 (hrendered h hh).written (hrendered h hh).first (hrendered h hh).last
      (hspec h hh).2
  exact forall₂_congr hone

/-! ## A ticket -/

open Core in
/-- An agent's record about one ticket. -/
def ticketRecord (agent : Text) : ActionRecord :=
  { plainRecord (ulid 'A' isCrockfordDigit_A) "2026-01-01T00:00:00Z".toList with
    agent, entities := [⟨"ticket".toList, "PROJ-42".toList, .primary, fieldConfidence⟩] }

def ticket : EntityKey := ⟨"ticket".toList, "PROJ-42".toList⟩

/-- The ticket's note, with the sources of its one fact. -/
def ticketNote (agent : Text) (sources : List RecordId) : Note :=
  ⟨ticket, [⟨.actor ticket agent, 1, "2026-01-01T00:00:00Z".toList, "2026-01-01T00:00:00Z".toList,
    sources⟩]⟩

section
set_option maxRecDepth 4000

theorem parse_render_ticket : ∃ t, (ticketNote "agent_a".toList [(ticketRecord []).recordId]).render =
    .ok t ∧ Note.parse t = .ok (ticketNote "agent_a".toList [(ticketRecord []).recordId]) := by
  obtain ⟨t, ht⟩ : ∃ t, (ticketNote "agent_a".toList [(ticketRecord []).recordId]).render = .ok t :=
    ⟨_, rfl⟩
  refine ⟨t, ht, (parse_render_iff [ticketRecord "agent_a".toList] _ t (by decide +kernel) ht).2 ?_⟩
  intro h hh
  obtain rfl := List.mem_singleton.1 hh
  show extract (tick "agent_a".toList) = []
  decide +kernel

open Core in
/-- The agent named like a wikilink to another record. -/
def linkAgent : Text := renderLink "record".toList (ulid 'B' isCrockfordDigit_B).text

open Core in
/-- **An agent's name is read back as a source**: the note comes back with a record it
    was not derived from. -/
theorem agent_becomes_source : ¬ ∀ rs n t, n ∈ collate (observe rs) → n.render = .ok t →
    Note.parse t = .ok n := by
  intro h
  obtain ⟨t, ht⟩ : ∃ t, (ticketNote linkAgent [(ticketRecord []).recordId]).render = .ok t :=
    ⟨_, rfl⟩
  have hback := h [ticketRecord linkAgent] _ t (by decide +kernel) ht
  have hwrong : (ticketNote linkAgent [(ticketRecord []).recordId]).render.toOption.bind
      (fun t => (Note.parse t).toOption) =
        some (ticketNote linkAgent [ulid 'B' (by decide), (ticketRecord []).recordId]) := by
    decide +kernel
  rw [ht, Except.toOption, Option.bind_some, hback] at hwrong
  exact absurd (Option.some.inj hwrong) (by decide +kernel)

end

end Yaam.Knowledge
