/-
  A whole record file: `---`, frontmatter, `---`, then the body, which is prose
  or a fenced sealed block (`yaam-md`, `document.rs`).

  * `Document.render` and `Document.parse` write and read the file; `split`,
    `trimSeparators` and `isSealed` find the body and tell its kind;
  * `split_render`: the frontmatter and the body of a rendered file;
  * `parse_render_plain`: what a plaintext file reads back as, and
    `readsBack_iff` exactly when that is the document written;
  * `parse_render_sealed`: a sealed file reads back as written.
-/
import Yaam.Md.Frontmatter

namespace Yaam.Md

open Text Contract

/-- A record's body. -/
inductive Body where
  /-- Readable prose. -/
  | plain (text : Text)
  /-- A sealed block, unreadable without the subject keys. -/
  | sealed (block : Crypto.SealedBody)
deriving DecidableEq

/-- Frontmatter plus body: the unit written to and read from disk. -/
structure Document where
  record : ActionRecord
  body : Body
deriving DecidableEq

def fence : Text := "---".toList

def Body.render : Body → Text
  | .plain t => t
  | .sealed b => Crypto.render b

/-- Splits at the first fence line: the text before it and the text after it.
    `before` and `line` hold what was read, up to the last line start and since. -/
def splitFence (before line : Text) : Text → Option (Text × Text)
  | [] => if trimEnd line = fence then some (before, []) else none
  | c :: t =>
    if c = '\n' then
      if trimEnd line = fence then some (before, t) else splitFence (before ++ line ++ ['\n']) [] t
    else splitFence before (line ++ [c]) t

/-- A text without one leading newline, of either spelling. -/
def dropNewline (t : Text) : Text :=
  match stripPrefix ['\r', '\n'] t with
  | some u => u
  | none => (stripPrefix ['\n'] t).getD t

/-- A text without one trailing newline, of either spelling. -/
def chompNewline (t : Text) : Text :=
  match stripSuffix ['\r', '\n'] t with
  | some u => u
  | none => (stripSuffix ['\n'] t).getD t

/-- Removes the blank line after the closing fence and the newline at the end:
    exactly one of each. -/
def trimSeparators (body : Text) : Text := chompNewline (dropNewline body)

/-- A file after its opening fence line. -/
def afterFence (t : Text) : Option Text :=
  match stripPrefix (fence ++ ['\n']) t with
  | some rest => some rest
  | none => stripPrefix (fence ++ ['\r', '\n']) t

/-- A file's frontmatter and its body text. -/
def split (t : Text) : Except Error (Text × Text) :=
  match afterFence t with
  | none => .error .missingFrontmatter
  | some rest => match splitFence [] [] rest with
    | none => .error (.malformedFrontmatter "unterminated frontmatter fence")
    | some (yaml, body) => .ok (yaml, trimSeparators body)

/-- Whether a body holds a sealed block rather than prose. -/
def isSealed (body : Text) : Bool := startsWith Crypto.fenceOpen (trimStart body)

section
variable (Y : Yaml)

/-- The complete file. -/
def Document.render (d : Document) : Text :=
  fence ++ '\n' :: Md.render Y d.record ++ fence ++ '\n' :: '\n' :: d.body.render ++ ['\n']

/-- A complete file as a document. -/
def Document.parse (t : Text) : Except Error Document :=
  match split t with
  | .error e => .error e
  | .ok (yaml, body) => match Md.parse Y yaml with
    | .error e => .error e
    | .ok record =>
      if isSealed body then
        match Crypto.parse body with
        | .error e => .error (.crypto e)
        | .ok block => .ok ⟨record, .sealed block⟩
      else .ok ⟨{ record with summary := body }, .plain body⟩

end

/-- The text full-text search indexes: none for a sealed body. -/
def Document.searchableText (d : Document) : Text :=
  match d.body with
  | .plain t => t
  | .sealed _ => []

/-! ## The split of a rendered file -/

theorem splitFence_line {l : Text} (h : '\n' ∉ l) (before line t : Text) :
    splitFence before line (l ++ t) = splitFence before (line ++ l) t := by
  induction l generalizing line with
  | nil => simp
  | cons c l ih =>
    simp only [List.mem_cons, not_or] at h
    rw [List.cons_append, splitFence, if_neg (Ne.symm h.1), ih h.2]
    simp

/-- Plain lines are read over. -/
theorem splitFence_unlines {ls : List Text} (h : ∀ l ∈ ls, PlainLine l) (before t : Text) :
    splitFence before [] (unlines ls ++ t) = splitFence (before ++ unlines ls) [] t := by
  induction ls generalizing before with
  | nil => simp
  | cons l ls ih =>
    have hl := h l (by simp)
    have hne : trimEnd ([] ++ l) ≠ fence := hl.trimEnd_ne
    rw [unlines_cons, List.append_assoc, splitFence_line hl.1, List.cons_append, splitFence,
      if_pos rfl, if_neg hne, ih (fun k hk => h k (by simp [hk]))]
    simp

theorem splitFence_fence (before t : Text) :
    splitFence before [] (fence ++ '\n' :: t) = some (before, t) := by
  rw [splitFence_line (by decide), List.nil_append, splitFence, if_pos rfl, if_pos (by decide)]

theorem chompNewline_append (b : Text) :
    chompNewline (b ++ ['\n']) = if b.getLast? = some '\r' then b.dropLast else b := by
  unfold chompNewline
  split_ifs with hr
  · obtain ⟨c, rfl⟩ := List.getLast?_eq_some_iff.1 hr
    rw [List.append_assoc, show ['\r'] ++ ['\n'] = ['\r', '\n'] from rfl, stripSuffix_append]
    simp
  · cases hs : stripSuffix ['\r', '\n'] (b ++ ['\n']) with
    | none => simp only [stripSuffix_append, Option.getD_some]
    | some c =>
      have hc := stripSuffix_eq_some hs
      rw [show c ++ ['\r', '\n'] = c ++ ['\r'] ++ ['\n'] by simp] at hc
      rw [List.append_cancel_right hc] at hr
      simp at hr

/-- What the separators leave of a body written between them. -/
theorem trimSeparators_body (b : Text) :
    trimSeparators ('\n' :: b ++ ['\n']) = if b.getLast? = some '\r' then b.dropLast else b := by
  have h1 : stripPrefix ['\r', '\n'] ('\n' :: b ++ ['\n']) = none := rfl
  have h2 : stripPrefix ['\n'] ('\n' :: b ++ ['\n']) = some (b ++ ['\n']) :=
    stripPrefix_append ['\n'] _
  rw [trimSeparators, dropNewline, h1, h2]
  exact chompNewline_append b

variable {Y : Yaml}

/-- The frontmatter and the body of a rendered file. -/
theorem split_render (d : Document) :
    split (d.render Y) = .ok (Md.render Y d.record,
      if d.body.render.getLast? = some '\r' then d.body.render.dropLast else d.body.render) := by
  obtain ⟨ls, hls, hplain⟩ := render_lines Y d.record
  have hpre : afterFence (d.render Y) =
      some (Md.render Y d.record ++ (fence ++ '\n' :: ('\n' :: d.body.render ++ ['\n']))) := by
    have : d.render Y = (fence ++ ['\n']) ++
        (Md.render Y d.record ++ (fence ++ '\n' :: ('\n' :: d.body.render ++ ['\n']))) := by
      simp [Document.render]
    rw [afterFence, this, stripPrefix_append]
  have hfence : splitFence [] []
      (Md.render Y d.record ++ (fence ++ '\n' :: ('\n' :: d.body.render ++ ['\n']))) =
      some (Md.render Y d.record, '\n' :: d.body.render ++ ['\n']) := by
    rw [hls, splitFence_unlines hplain, splitFence_fence, List.nil_append]
  simp only [split, hpre, hfence, trimSeparators_body]

/-- Lines ended by newlines split into themselves and an empty rest. -/
theorem mem_splitOn_unlines {ls : List Text} (h : ∀ l ∈ ls, PlainLine l) {l : Text}
    (hl : l ∈ splitOn '\n' (unlines ls)) : l = [] ∨ PlainLine l := by
  induction ls with
  | nil => exact .inl (List.mem_singleton.1 hl)
  | cons k ls ih =>
    rw [unlines_cons, splitOn_append_cons (h k (by simp)).1] at hl
    rcases List.mem_cons.1 hl with rfl | hl
    · exact .inr (h l (by simp))
    · exact ih (fun j hj => h j (by simp [hj])) hl

/-- **No field value ends the frontmatter early and no body extends it**: no line of
    rendered frontmatter is a fence, and a rendered file splits where it was joined. -/
theorem frontmatter_is_delimited (Y : Yaml) (d : Document) :
    (∀ l ∈ splitOn '\n' (Md.render Y d.record), trimEnd l ≠ fence) ∧
      split (d.render Y) =
        .ok (Md.render Y d.record, trimSeparators ('\n' :: d.body.render ++ ['\n'])) := by
  constructor
  · intro l hl
    obtain ⟨ls, hls, hplain⟩ := render_lines Y d.record
    rw [hls] at hl
    rcases mem_splitOn_unlines hplain hl with rfl | hl
    · decide
    · exact hl.trimEnd_ne
  · rw [split_render, trimSeparators_body]

/-! ## Reading back -/

/-- **What a plaintext file reads back as**: its body without a last `\r`, taken
    for a sealed block when it starts with the fence. -/
theorem parse_render_plain (hY : Y.Inverts) {r : ActionRecord} (hr : r.validate = .ok ())
    (b : Text) :
    Document.parse Y (Document.render Y ⟨r, .plain b⟩) =
      let body := if b.getLast? = some '\r' then b.dropLast else b
      if isSealed body then
        match Crypto.parse body with
        | .error e => .error (.crypto e)
        | .ok block => .ok ⟨r.bare, .sealed block⟩
      else .ok ⟨{ r with summary := body }, .plain body⟩ := by
  simp only [Document.parse, split_render, Body.render, parse_render hY hr]
  rfl

/-- The file reads back as the plaintext document written: the same record, the
    exact body, and the body as its searchable text and summary. -/
def ReadsBack (Y : Yaml) (d : Document) (b : Text) : Prop :=
  ∃ d', Document.parse Y (d.render Y) = .ok d' ∧ d'.body = .plain b ∧ d'.searchableText = b ∧
    d'.record = { d.record with summary := b }

/-- **A plaintext file reads back as written exactly when** its body does not end
    in a carriage return and does not start with the sealed fence. -/
theorem readsBack_iff (hY : Y.Inverts) {r : ActionRecord} (hr : r.validate = .ok ()) (b : Text) :
    ReadsBack Y ⟨r, .plain b⟩ b ↔ b.getLast? ≠ some '\r' ∧ isSealed b = false := by
  unfold ReadsBack
  rw [parse_render_plain hY hr b]
  constructor
  · rintro ⟨d, hd, hb, -, -⟩
    by_cases hcr : b.getLast? = some '\r'
    · simp only [hcr, if_true] at hd
      split_ifs at hd with hs
      · split at hd
        · cases hd
        · cases hd
          cases hb
      · cases hd
        obtain ⟨c, rfl⟩ := List.getLast?_eq_some_iff.1 hcr
        simp at hb
    · simp only [hcr, if_false] at hd
      split_ifs at hd with hs
      · split at hd
        · cases hd
        · cases hd
          cases hb
      · exact ⟨hcr, by simpa using hs⟩
  · rintro ⟨hcr, hs⟩
    refine ⟨⟨{ r with summary := b }, .plain b⟩, ?_, rfl, rfl, rfl⟩
    simp [hcr, hs]

/-- A file whose body is empty never reads back as sealed. -/
theorem parse_render_nil {r : ActionRecord} {d : Document}
    (h : Document.parse Y (Document.render Y ⟨r, .plain []⟩) = .ok d) : d.body = .plain [] := by
  simp only [Document.parse, split_render, Body.render, List.getLast?_nil, reduceCtorEq,
    if_false] at h
  split at h
  · cases h
  · rw [if_neg (by decide)] at h
    cases h
    rfl

/-- **A sealed file reads back as written**, its shares in subject order. -/
theorem parse_render_sealed (hY : Y.Inverts) {r : ActionRecord} (hr : r.validate = .ok ())
    {b : Crypto.SealedBody} (hb : ∀ c ∈ b.epoch.text, isWhite c = false) (hs : b.shares ≠ []) :
    Document.parse Y (Document.render Y ⟨r, .sealed b⟩) =
      .ok ⟨r.bare, .sealed { b with shares := Crypto.sortShares b.shares }⟩ := by
  obtain ⟨t, ht, hlast⟩ := Crypto.render_concat b
  have hcr : (Crypto.render b).getLast? ≠ some '\r' := by
    rw [hlast]
    simp [Crypto.fenceClose, List.getLast?_append]
  have hsealed : isSealed (Crypto.render b) = true := by
    have : Crypto.render b = Crypto.fenceOpen ++ '\n' :: joinWith '\n' (Crypto.blockLines b).tail := rfl
    have hw : ∀ u, List.dropWhile isWhite (Crypto.fenceOpen ++ u) = Crypto.fenceOpen ++ u :=
      fun _ => rfl
    rw [isSealed, trimStart, this, hw, startsWith, stripPrefix_append]
    rfl
  simp only [Document.parse, split_render, Body.render, hcr, if_false, parse_render hY hr, hsealed,
    if_true, Crypto.parse_render hb hs]

/-- What parses is a valid record. -/
theorem Document.parse_validate {t : Text} {d : Document} (h : Document.parse Y t = .ok d) :
    d.record.validate = .ok () := by
  unfold Document.parse at h
  split at h
  · cases h
  · split at h
    · cases h
    · rename_i hp
      have hv := (parse_ok hp).1
      split_ifs at h
      · split at h
        · cases h
        · cases h
          exact hv
      · cases h
        exact hv

end Yaam.Md
