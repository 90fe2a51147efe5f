/-
  Append-only logs of lines: each entry is one line of text, appended to the bytes
  that stand, and a reader that skips what it cannot parse.

  An append can be cut short by a crash, which leaves some of its bytes.

  * `LineCodec.Lawful` is what the codec of a JSON line promises;
  * `entries_append`: an append at a line start adds its entry to those read, and
    `mem_entries_append` that an append anywhere adds no other;
  * `Clean` is a log whose next line is read: `Clean.entries_append`, and every append
    leaves it so (`ended_append`, `Ended.clean`);
  * `survives`: in every run whose torn writes end between characters and whose
    acknowledged appends start at a line start, the log is readable and holds every
    acknowledged entry.
-/
import Yaam.Lib.Tree

namespace Yaam

open Text

/-- A codec of entries as lines of text. -/
structure LineCodec (α : Type) where
  toStr : α → Text
  fromStr : Text → Option α

/-- What the codec of a JSON object on one line promises. -/
structure LineCodec.Lawful {α : Type} (C : LineCodec α) : Prop where
  /-- An entry's line is read back. -/
  inverts : ∀ a, C.fromStr (C.toStr a) = some a
  /-- It is one line. -/
  oneLine : ∀ a, '\n' ∉ C.toStr a
  noReturn : ∀ a, '\r' ∉ C.toStr a
  /-- It is an object, from its first brace to its last. -/
  opens : ∀ a, (C.toStr a).head? = some '{'
  closes : ∀ a, (C.toStr a).getLast? = some '}'
  /-- Nothing but that object is on a line that is read. -/
  alone : ∀ t a x, C.fromStr (t ++ C.toStr a) = some x → x = a

/-- A line glued from pieces of entries' lines is one of them whole, or is not read. -/
def LineCodec.NoGlue {α : Type} (C : LineCodec α) : Prop :=
  ∀ (ps : List (α × ℕ)) x, C.fromStr (ps.flatMap fun p => (C.toStr p.1).take p.2) = some x →
    ∃ p ∈ ps, p.1 = x

namespace LineLog

variable {α : Type} (C : LineCodec α)

/-- The line of an entry, with its newline. -/
def line (a : α) : Text := C.toStr a ++ ['\n']

/-- The bytes of a log; a log that is not there is empty. -/
def bytes (log : Option Bytes) : Bytes := log.getD []

/-- Appends an entry. -/
def append (log : Option Bytes) (a : α) : Option Bytes :=
  some (bytes log ++ Utf8.encode (line C a))

/-- An append of which a crash left the first `k` bytes. -/
def appendTorn (log : Option Bytes) (a : α) (k : ℕ) : Option Bytes :=
  some (bytes log ++ (Utf8.encode (line C a)).take k)

/-- The entries of a log's text: a blank line is passed over, and a line that will
    not parse is skipped. -/
def entriesOf (t : Text) : List α := ((lines t).filter fun l => trim l ≠ []).filterMap C.fromStr

/-- The entries of a log, when its bytes are text. -/
def entries (log : Option Bytes) : Except IoError (List α) :=
  match log with
  | none => .ok []
  | some bs => match Utf8.decode bs with
    | none => .error (.invalidData "stream did not contain valid UTF-8")
    | some t => .ok (entriesOf C t)

/-- The log's bytes are this text. -/
def Holds (log : Option Bytes) (t : Text) : Prop := bytes log = Utf8.encode t

/-- The log's last line, if it has one, is ended. -/
def AtLineStart (log : Option Bytes) : Prop := ∃ t, Holds log t ∧ Text.AtLineStart t

variable {C} {log : Option Bytes} {t : Text}

theorem Holds.unique {u : Text} (h : Holds log t) (h' : Holds log u) : t = u :=
  Utf8.encode_inj (h.symm.trans h')

theorem entries_of_holds (h : Holds log t) : entries C log = .ok (entriesOf C t) := by
  cases log with
  | none =>
    have : t = [] := Utf8.encode_inj (show Utf8.encode t = Utf8.encode [] from h.symm)
    subst this
    rfl
  | some bs =>
    have hd : Utf8.decode bs = some t := Utf8.decode_eq_some_iff.2 h
    rw [entries, hd]

theorem entries_ok {es : List α} (h : entries C log = .ok es) :
    ∃ t, Holds log t ∧ es = entriesOf C t := by
  cases log with
  | none => exact ⟨[], rfl, (Except.ok.inj h).symm⟩
  | some bs =>
    rw [entries] at h
    split at h
    · cases h
    · rename_i t ht
      exact ⟨t, Utf8.decode_eq_some_iff.1 ht, (Except.ok.inj h).symm⟩

theorem Holds.append (h : Holds log t) (a : α) : Holds (append C log a) (t ++ line C a) := by
  rw [Holds, Utf8.encode_append, ← h]
  rfl

theorem Holds.appendTorn {a : α} {k : ℕ} {p : Text} (h : Holds log t)
    (hp : (Utf8.encode (line C a)).take k = Utf8.encode p) :
    Holds (appendTorn C log a k) (t ++ p) := by
  rw [Holds, Utf8.encode_append, ← h, ← hp]
  rfl

theorem entriesOf_append (ht : Text.AtLineStart t) (u : Text) :
    entriesOf C (t ++ u) = entriesOf C t ++ entriesOf C u := by
  rw [entriesOf, lines_append ht, List.filter_append, List.filterMap_append]
  rfl

theorem atLineStart_append {es : List α} (h : entries C log = .ok es) (a : α) :
    AtLineStart (append C log a) := by
  obtain ⟨t, ht, -⟩ := entries_ok h
  refine ⟨_, ht.append a, ?_⟩
  rw [line, ← List.append_assoc]
  exact atLineStart_append_newline _

/-! ## Lawful codecs -/

section
variable (hC : C.Lawful)
include hC

theorem toStr_ne_nil (a : α) : C.toStr a ≠ [] := by
  intro h
  have := hC.opens a
  simp [h] at this

/-- A line is read for itself even after text that no newline ended. -/
theorem entriesOf_glued {v : Text} (hv : '\n' ∉ v) (a : α) :
    entriesOf C (v ++ line C a) = (C.fromStr (v ++ C.toStr a)).toList := by
  have hnl : '\n' ∉ v ++ C.toStr a := by
    rw [List.mem_append, not_or]
    exact ⟨hv, hC.oneLine a⟩
  have hlast : (v ++ C.toStr a).getLast? = some '}' := by
    rw [List.getLast?_append, hC.closes a, Option.some_or]
  have hchomp : chompCr (v ++ C.toStr a) = v ++ C.toStr a := by
    refine chompCr_of_getLast? ?_
    rw [hlast]
    decide
  have htrim : trim (v ++ C.toStr a) ≠ [] := by
    intro h
    have hmem : '}' ∈ v ++ C.toStr a := List.mem_of_getLast? hlast
    have hall : ∀ {w : Text}, w.dropWhile isWhite = [] → '}' ∉ w := by
      intro w hw hm
      exact absurd (List.dropWhile_eq_nil_iff.1 hw _ hm) (by decide)
    rw [trim, trimEnd, List.reverse_eq_nil_iff] at h
    have hstart : '}' ∉ trimStart (v ++ C.toStr a) := fun hm =>
      hall h (List.mem_reverse.2 hm)
    have hsuffix : '}' ∈ (v ++ C.toStr a).takeWhile isWhite ++ trimStart (v ++ C.toStr a) := by
      rw [trimStart, List.takeWhile_append_dropWhile]
      exact hmem
    rcases List.mem_append.1 hsuffix with hm | hm
    · exact absurd (List.mem_takeWhile_imp hm) (by decide)
    · exact hstart hm
  rw [entriesOf, line, ← List.append_assoc, lines_line hnl, hchomp, List.filter_cons,
    if_pos (by simpa using htrim)]
  cases hr : C.fromStr (v ++ C.toStr a) with
  | none => simp only [List.filter_nil, List.filterMap_cons, List.filterMap_nil, hr]; rfl
  | some x => simp only [List.filter_nil, List.filterMap_cons, List.filterMap_nil, hr]; rfl

theorem entriesOf_line (a : α) : entriesOf C (line C a) = [a] := by
  have h := entriesOf_glued hC (List.not_mem_nil : '\n' ∉ ([] : Text)) a
  rw [List.nil_append, List.nil_append, hC.inverts a] at h
  exact h

/-- **An append at a line start adds its entry.** -/
theorem entries_append (hlog : AtLineStart log) (a : α) {es : List α}
    (hes : entries C log = .ok es) : entries C (append C log a) = .ok (es ++ [a]) := by
  obtain ⟨t, ht, hstart⟩ := hlog
  obtain ⟨u, hu, rfl⟩ := entries_ok hes
  obtain rfl := ht.unique hu
  rw [entries_of_holds (ht.append a), entriesOf_append hstart, entriesOf_line hC]

/-- **An append anywhere adds no other entry than its own.** -/
theorem mem_entries_append {a x : α} {es es' : List α} (hes : entries C log = .ok es)
    (hes' : entries C (append C log a) = .ok es') (hx : x ∈ es') : x ∈ es ∨ x = a := by
  obtain ⟨u, hu, rfl⟩ := entries_ok hes
  rw [entries_of_holds (hu.append a)] at hes'
  obtain rfl := Except.ok.inj hes'
  obtain ⟨t, v, rfl, ht, hv⟩ := exists_lineStart u
  rw [List.append_assoc, entriesOf_append ht, entriesOf_glued hC hv] at hx
  rcases List.mem_append.1 hx with hx | hx
  · refine .inl ?_
    rw [entriesOf_append ht]
    exact List.mem_append_left _ hx
  · exact .inr (hC.alone _ _ _ (Option.mem_toList.1 hx))

/-- What is not text does not become text by an append. -/
theorem entries_append_error (h : ∀ t, ¬ Holds log t) (a : α) (t : Text) :
    ¬ Holds (append C log a) t := by
  intro ht
  obtain ⟨l, hl⟩ : ∃ l, C.toStr a = '{' :: l := by
    cases hs : C.toStr a with
    | nil => exact absurd hs (toStr_ne_nil hC a)
    | cons c l =>
      have := hC.opens a
      rw [hs] at this
      exact ⟨l, by rw [Option.some.inj this]⟩
  have hline : Utf8.encode (line C a) = 123 :: Utf8.encode (l ++ ['\n']) := by
    rw [line, hl, List.cons_append, Utf8.encode_cons]
    rfl
  have hnone : Utf8.decode (bytes log) = none := by
    cases hd : Utf8.decode (bytes log) with
    | none => rfl
    | some u => exact absurd (Utf8.decode_eq_some_iff.1 hd) (h u)
  have happ : Utf8.decode (bytes log ++ Utf8.encode (line C a)) = none := by
    rw [hline]
    exact Utf8.decode_append_ascii (by decide) hnone
  have hd : Utf8.decode (bytes (append C log a)) = some t := Utf8.decode_eq_some_iff.2 ht
  rw [show bytes (append C log a) = bytes log ++ Utf8.encode (line C a) from rfl, happ] at hd
  cases hd

end

/-! ## Logs that take the next line -/

/-- The next line appended is read: what stands after the last newline is no entry, and keeps
    no line behind it from being read. -/
def Clean (C : LineCodec α) (log : Option Bytes) : Prop :=
  ∀ t v, Holds log (t ++ v) → Text.AtLineStart t → '\n' ∉ v →
    entriesOf C v = [] ∧ ∀ a, C.fromStr (v ++ C.toStr a) = some a

/-- The last line is ended, if the log is text. -/
def Ended (log : Option Bytes) : Prop := ∀ t, Holds log t → Text.AtLineStart t

section
variable (hC : C.Lawful)
include hC

/-- A log that an append makes readable was readable. -/
theorem holds_of_entries_append {a : α} {es : List α} (h : entries C (append C log a) = .ok es) :
    ∃ u, Holds log u := by
  by_contra hno
  obtain ⟨t, ht, -⟩ := entries_ok h
  exact entries_append_error hC (fun u hu => hno ⟨u, hu⟩) a t ht

theorem ended_append (log : Option Bytes) (a : α) : Ended (append C log a) := by
  intro t ht
  obtain ⟨u, hu⟩ := holds_of_entries_append hC (entries_of_holds ht)
  obtain rfl := ht.unique (hu.append a)
  rw [line, ← List.append_assoc]
  exact atLineStart_append_newline _

theorem Ended.clean (h : Ended log) : Clean C log := by
  intro t v htv ht hv
  obtain rfl : v = [] := by
    rcases h _ htv with hnil | hlast
    · exact (List.append_eq_nil_iff.1 hnil).2
    · rw [List.getLast?_append] at hlast
      cases hl : v.getLast? with
      | none => exact List.getLast?_eq_none_iff.1 hl
      | some c =>
        rw [hl, Option.some_or] at hlast
        exact absurd (Option.some.inj hlast ▸ List.mem_of_getLast? hl) hv
  exact ⟨rfl, hC.inverts⟩

/-- **What a clean log reads after an append** is what it read, and the entry. -/
theorem Clean.entries_append (h : Clean C log) {a : α} {es' : List α}
    (hes' : entries C (append C log a) = .ok es') :
    ∃ es, entries C log = .ok es ∧ es' = es ++ [a] := by
  obtain ⟨u, hu⟩ := holds_of_entries_append hC hes'
  obtain ⟨t, v, rfl, ht, hv⟩ := exists_lineStart u
  obtain ⟨hnone, hread⟩ := h t v hu ht hv
  refine ⟨_, entries_of_holds hu, ?_⟩
  rw [entries_of_holds (hu.append a), List.append_assoc, entriesOf_append ht,
    entriesOf_glued hC hv, hread] at hes'
  obtain rfl := Except.ok.inj hes'
  rw [entriesOf_append ht, hnone, List.append_nil]
  rfl

end

/-! ## Crashes -/

/-- One append: acknowledged, or cut short after `k` bytes. -/
inductive Event (α : Type) where
  | ok (a : α)
  | torn (a : α) (k : ℕ)

/-- The log after one append. -/
def step (C : LineCodec α) (log : Option Bytes) : Event α → Option Bytes
  | .ok a => append C log a
  | .torn a k => appendTorn C log a k

/-- The log after a run of appends. -/
def replay (C : LineCodec α) (log : Option Bytes) (evs : List (Event α)) : Option Bytes :=
  evs.foldl (step C) log

/-- The entries a run acknowledged. -/
def acknowledged (evs : List (Event α)) : List α :=
  evs.filterMap fun
    | .ok a => some a
    | .torn _ _ => none

/-- An append that costs nothing: acknowledged at a line start, or torn between two
    characters. -/
def Harmless (C : LineCodec α) (log : Option Bytes) : Event α → Prop
  | .ok _ => AtLineStart log
  | .torn a k => ∃ p, (Utf8.encode (line C a)).take k = Utf8.encode p

/-- Every append of a run is harmless where it happens. -/
def HarmlessRun (C : LineCodec α) : Option Bytes → List (Event α) → Prop
  | _, [] => True
  | log, ev :: evs => Harmless C log ev ∧ HarmlessRun C (step C log ev) evs

/-- The log is text whose whole lines hold the entries `as`, whatever its last line. -/
def Keeps (C : LineCodec α) (log : Option Bytes) (as : List α) : Prop :=
  ∃ t u, Holds log (t ++ u) ∧ Text.AtLineStart t ∧ ∀ a ∈ as, a ∈ entriesOf C t

/-- A harmless append keeps what the whole lines hold, and adds what it acknowledges. -/
theorem Keeps.step (hC : C.Lawful) {as : List α} (h : Keeps C log as) {ev : Event α}
    (hev : Harmless C log ev) : Keeps C (step C log ev) (as ++ acknowledged [ev]) := by
  obtain ⟨t, u, htu, ht, has⟩ := h
  cases ev with
  | ok a =>
    obtain ⟨w, hw, hstart⟩ := hev
    obtain rfl := htu.unique hw
    refine ⟨t ++ u ++ line C a, [], ?_, ?_, ?_⟩
    · rw [List.append_nil]
      exact htu.append a
    · rw [line, ← List.append_assoc]
      exact atLineStart_append_newline _
    · intro b hb
      rw [entriesOf_append hstart, entriesOf_append ht, entriesOf_line hC]
      have hb' : b ∈ as ∨ b = a := by simpa [acknowledged] using hb
      rcases hb' with hb | rfl
      · simp [has b hb]
      · simp
  | torn a k =>
    obtain ⟨p, hp⟩ := hev
    refine ⟨t, u ++ p, ?_, ht, by simpa [acknowledged] using has⟩
    rw [← List.append_assoc]
    exact htu.appendTorn hp

/-- **A run of harmless appends** leaves a log that is read, with every entry it
    acknowledged. -/
theorem survives (hC : C.Lawful) {as : List α} (h : Keeps C log as) {evs : List (Event α)}
    (hevs : HarmlessRun C log evs) :
    ∃ es, entries C (replay C log evs) = .ok es ∧ ∀ a ∈ as ++ acknowledged evs, a ∈ es := by
  induction evs generalizing log as with
  | nil =>
    obtain ⟨t, u, htu, ht, has⟩ := h
    refine ⟨_, entries_of_holds htu, fun a ha => ?_⟩
    rw [entriesOf_append ht]
    exact List.mem_append_left _ (has a (by simpa [acknowledged] using ha))
  | cons ev evs ih =>
    obtain ⟨es, hes, hmem⟩ := ih (h.step hC hevs.1) hevs.2
    refine ⟨es, hes, fun a ha => hmem a ?_⟩
    have hsplit : acknowledged (ev :: evs) = acknowledged [ev] ++ acknowledged evs := by
      cases ev <;> rfl
    rwa [hsplit, ← List.append_assoc] at ha

/-! ## What a run can read -/

/-- The entries a run tried to append. -/
def attempted (evs : List (Event α)) : List α :=
  evs.map fun
    | .ok a => a
    | .torn a _ => a

/-- The beginnings of entries' lines, one after another. -/
def pieces (C : LineCodec α) (ps : List (α × ℕ)) : Text :=
  ps.flatMap fun p => (C.toStr p.1).take p.2

/-- The log is text whose whole lines hold only these entries, and whose last line is
    made of beginnings of theirs. -/
def MadeOf (C : LineCodec α) (log : Option Bytes) (as : List α) : Prop :=
  ∃ t ps, Holds log (t ++ pieces C ps) ∧ Text.AtLineStart t ∧ (∀ x ∈ entriesOf C t, x ∈ as) ∧
    ∀ p ∈ ps, p.1 ∈ as

theorem notMem_pieces {c : Char} (hc : ∀ a, c ∉ C.toStr a) (ps : List (α × ℕ)) :
    c ∉ pieces C ps := fun h => by
  obtain ⟨p, -, hp⟩ := List.mem_flatMap.1 h
  exact hc p.1 (List.mem_of_mem_take hp)

/-- A last line without a newline is read as it stands. -/
theorem fromStr_of_last {v : Text} (hn : '\n' ∉ v) (hr : '\r' ∉ v) {x : α}
    (hx : x ∈ entriesOf C v) : C.fromStr v = some x := by
  have hchomp : chompCr v = v := chompCr_of_getLast? fun h => hr (List.mem_of_getLast? h)
  rw [entriesOf, lines, splitOn_of_notMem hn] at hx
  obtain ⟨l, hl, hlx⟩ := List.mem_filterMap.1 hx
  have hmem := (List.mem_filter.1 hl).1
  split_ifs at hmem
  · simp at hmem
  · simp only [List.map_cons, List.map_nil, List.mem_singleton, hchomp] at hmem
    rwa [hmem] at hlx

/-- A whole line ends the last line of a log made of pieces. -/
theorem MadeOf.append (hC : C.Lawful) {as : List α} (h : MadeOf C log as) (a : α) :
    MadeOf C (LineLog.append C log a) (as ++ [a]) := by
  obtain ⟨t, ps, htu, ht, hread, hps⟩ := h
  refine ⟨t ++ pieces C ps ++ line C a, [], ?_, ?_, ?_, nofun⟩
  · show Holds _ (_ ++ [])
    rw [List.append_nil]
    exact htu.append a
  · rw [line, ← List.append_assoc]
    exact atLineStart_append_newline _
  · intro x hx
    rw [List.append_assoc, entriesOf_append ht,
      entriesOf_glued hC (notMem_pieces hC.oneLine ps)] at hx
    rcases List.mem_append.1 hx with hx | hx
    · exact List.mem_append_left _ (hread x hx)
    · rw [hC.alone _ _ _ (Option.mem_toList.1 hx)]
      simp

/-- The beginning of a line that a crash left. -/
theorem prefix_line {a : α} {p q : Text} (h : line C a = p ++ q) :
    p = line C a ∨ ∃ n, p = (C.toStr a).take n := by
  rcases List.append_eq_append_iff.1 h with ⟨u, rfl, hu⟩ | ⟨u, hu, -⟩
  · rcases List.append_eq_singleton_iff.1 hu.symm with ⟨rfl, -⟩ | ⟨rfl, rfl⟩
    · exact .inr ⟨(C.toStr a).length, by simp⟩
    · exact .inl rfl
  · exact .inr ⟨p.length, by rw [hu]; simp⟩

/-- A harmless append leaves a log made of what was appended. -/
theorem MadeOf.step (hC : C.Lawful) {as : List α} (h : MadeOf C log as) {ev : Event α}
    (hev : Harmless C log ev) : MadeOf C (step C log ev) (as ++ attempted [ev]) := by
  cases ev with
  | ok a => exact h.append hC a
  | torn a k =>
    obtain ⟨p, hp⟩ := hev
    obtain ⟨q, hq⟩ := Utf8.prefix_of_take hp
    rcases prefix_line hq with rfl | ⟨n, rfl⟩
    · have hwhole : appendTorn C log a k = LineLog.append C log a := by rw [appendTorn, hp]; rfl
      have h' := h.append hC a
      rwa [← hwhole] at h'
    · obtain ⟨t, ps, htu, ht, hread, hps⟩ := h
      refine ⟨t, ps ++ [(a, n)], ?_, ht, fun x hx => List.mem_append_left _ (hread x hx), ?_⟩
      · have hpieces : pieces C (ps ++ [(a, n)]) = pieces C ps ++ (C.toStr a).take n := by
          simp [pieces]
        rw [hpieces, ← List.append_assoc]
        exact htu.appendTorn hp
      · intro r hr
        rcases List.mem_append.1 hr with hr | hr
        · exact List.mem_append_left _ (hps r hr)
        · rw [List.mem_singleton.1 hr]
          simp [attempted]

theorem MadeOf.run (hC : C.Lawful) {as : List α} (h : MadeOf C log as) {evs : List (Event α)}
    (hevs : HarmlessRun C log evs) : MadeOf C (replay C log evs) (as ++ attempted evs) := by
  induction evs generalizing log as with
  | nil => simpa [attempted, replay] using h
  | cons ev evs ih =>
    have h' := ih (h.step hC hevs.1) hevs.2
    have hsplit : attempted (ev :: evs) = attempted [ev] ++ attempted evs := rfl
    rwa [hsplit, ← List.append_assoc]

/-- **Nothing is read but what a run tried to append.** -/
theorem mem_attempted (hC : C.Lawful) (hglue : C.NoGlue) {as es : List α} (h : MadeOf C log as)
    {evs : List (Event α)} (hevs : HarmlessRun C log evs)
    (hes : entries C (replay C log evs) = .ok es) {x : α} (hx : x ∈ es) : x ∈ as ++ attempted evs := by
  obtain ⟨t, ps, htu, ht, hread, hps⟩ := h.run hC hevs
  rw [entries_of_holds htu] at hes
  obtain rfl := Except.ok.inj hes
  rw [entriesOf_append ht] at hx
  rcases List.mem_append.1 hx with hx | hx
  · exact hread x hx
  · have hx' := fromStr_of_last (notMem_pieces hC.oneLine ps) (notMem_pieces hC.noReturn ps) hx
    obtain ⟨p, hp, rfl⟩ := hglue ps x hx'
    exact hps p hp

end LineLog

end Yaam
