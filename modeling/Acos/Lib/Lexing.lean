import Mathlib.Data.List.Basic
import Mathlib.Data.List.TakeWhile

/-!
# Texts and their tokens

A text falls into operators, which are one character each, and words, which go on to the next space.
A rendering of a list of tokens writes them one after the other with spaces between them. The scan
and the renderings are inverse to each other.
-/

namespace Lexing

/-- The longest part of the text whose characters all satisfy `p`, and what is behind it. -/
theorem exists_span {α : Type*} (p : α → Bool) (text : List α) :
    ∃ front back, text = front ++ back ∧ (∀ c ∈ front, p c = true) ∧
      ∀ c, back.head? = some c → p c = false := by
  refine ⟨text.takeWhile p, text.dropWhile p, List.takeWhile_append_dropWhile.symm,
    fun c hc => List.mem_takeWhile_imp hc, fun c hc => ?_⟩
  have hhead := List.head?_dropWhile_not p text
  rw [hc] at hhead
  simpa using hhead

/-- No space is an operator. Operators are only looked for at the start of a token. -/
structure Lexer (α T : Type*) where
  isSpace : α → Bool
  operator : α → Option T
  word : List α → T
  operator_space : ∀ c, isSpace c = true → operator c = none

namespace Lexer

variable {α T : Type*} (l : Lexer α T)

/-- The end of a word, if one has been started. -/
def endWord : List α → List T
  | [] => []
  | c :: rest => [l.word (c :: rest)]

/-- The operator that the character is behind these characters of a word. -/
def operatorAfter : List α → α → Option T
  | [], c => l.operator c
  | _ :: _, _ => none

/-- The tokens behind the characters of a word that has been started. -/
def scan (word : List α) : List α → List T
  | [] => l.endWord word
  | c :: rest =>
      if l.isSpace c then l.endWord word ++ scan [] rest
      else match l.operatorAfter word c with
        | some token => token :: scan [] rest
        | none => scan (word ++ [c]) rest

/-! ### Renderings -/

def Gap (gap : List α) : Prop := ∀ c ∈ gap, l.isSpace c = true

/-- The text of a word. -/
structure IsWord (w : List α) : Prop where
  ne_nil : w ≠ []
  no_space : ∀ c ∈ w, l.isSpace c = false
  no_operator : ∀ c, w.head? = some c → l.operator c = none

/-- The tokens, each with the gap behind it. Only behind the last token may the gap after a word be
empty. -/
inductive RendersFrom : List T → List α → Prop where
  | nil : RendersFrom [] []
  | operator {c : α} {token : T} {tokens : List T} {gap text : List α}
      (htoken : l.operator c = some token) (hgap : l.Gap gap) (hrest : RendersFrom tokens text) :
      RendersFrom (token :: tokens) ([c] ++ (gap ++ text))
  | word {w : List α} {tokens : List T} {gap text : List α} (hword : l.IsWord w) (hgap : l.Gap gap)
      (hapart : tokens ≠ [] → gap ≠ []) (hrest : RendersFrom tokens text) :
      RendersFrom (l.word w :: tokens) (w ++ (gap ++ text))

/-- A gap and the tokens. -/
def Renders (tokens : List T) (text : List α) : Prop :=
  ∃ gap rest, l.Gap gap ∧ l.RendersFrom tokens rest ∧ text = gap ++ rest

variable {l}

theorem scan_space {c : α} (hc : l.isSpace c = true) (word text : List α) :
    l.scan word (c :: text) = l.endWord word ++ l.scan [] text := by
  rw [scan, if_pos hc]

theorem scan_gap {gap : List α} (hgap : l.Gap gap) (text : List α) :
    l.scan [] (gap ++ text) = l.scan [] text := by
  induction gap with
  | nil => rfl
  | cons c gap ih =>
      rw [List.cons_append, scan_space (hgap c List.mem_cons_self)]
      exact ih fun d hd => hgap d (List.mem_cons_of_mem c hd)

theorem scan_operator {c : α} {token : T} (htoken : l.operator c = some token) (text : List α) :
    l.scan [] (c :: text) = token :: l.scan [] text := by
  have hc : ¬ l.isSpace c = true := fun hspace => by
    rw [l.operator_space c hspace] at htoken
    exact nomatch htoken
  rw [scan, if_neg hc, operatorAfter, htoken]

/-- A character of a word is added to it. -/
theorem scan_letter {c : α} (hc : l.isSpace c = false) {word : List α}
    (hoperator : word = [] → l.operator c = none) (text : List α) :
    l.scan word (c :: text) = l.scan (word ++ [c]) text := by
  have hnone : l.operatorAfter word c = none := by
    cases word with
    | nil => exact hoperator rfl
    | cons d word => rfl
  rw [scan, if_neg (Bool.eq_false_iff.mp hc), hnone]

theorem scan_letters {word letters : List α} (hword : word ≠ [])
    (hletters : ∀ c ∈ letters, l.isSpace c = false) (text : List α) :
    l.scan word (letters ++ text) = l.scan (word ++ letters) text := by
  induction letters generalizing word with
  | nil => rw [List.nil_append, List.append_nil]
  | cons c letters ih =>
      rw [List.cons_append, scan_letter (hletters c List.mem_cons_self) fun h => absurd h hword,
        ih (List.append_ne_nil_of_left_ne_nil hword [c]) fun d hd =>
          hletters d (List.mem_cons_of_mem c hd), List.append_assoc, List.singleton_append]

/-- Behind the last character of a word it is a token. -/
theorem scan_apart {word : List α} (hword : word ≠ []) {text : List α}
    (htext : ∀ c, text.head? = some c → l.isSpace c = true) :
    l.scan word text = l.word word :: l.scan [] text := by
  obtain ⟨d, word, rfl⟩ := List.exists_cons_of_ne_nil hword
  cases text with
  | nil => rfl
  | cons c text =>
      have hc := htext c rfl
      rw [scan_space hc, scan_space hc]
      rfl

theorem scan_word {w : List α} (hw : l.IsWord w) {text : List α}
    (htext : ∀ c, text.head? = some c → l.isSpace c = true) :
    l.scan [] (w ++ text) = l.word w :: l.scan [] text := by
  obtain ⟨c, rest, rfl⟩ := List.exists_cons_of_ne_nil hw.ne_nil
  have hc := hw.no_space c List.mem_cons_self
  have hrest : ∀ d ∈ rest, l.isSpace d = false := fun d hd =>
    hw.no_space d (List.mem_cons_of_mem c hd)
  rw [List.cons_append, scan_letter hc fun _ => hw.no_operator c rfl, List.nil_append,
    scan_letters (List.cons_ne_nil c []) hrest]
  exact scan_apart (List.cons_ne_nil c rest) htext

theorem RendersFrom.scan_eq {tokens : List T} {text : List α} (h : l.RendersFrom tokens text) :
    l.scan [] text = tokens := by
  induction h with
  | nil => rfl
  | operator htoken hgap hrest ih =>
      rw [List.singleton_append, scan_operator htoken, scan_gap hgap, ih]
  | @word w tokens gap text hword hgap hapart hrest ih =>
      have hspace : ∀ c, (gap ++ text).head? = some c → l.isSpace c = true := by
        intro c hc
        cases gap with
        | nil =>
            have hnil : tokens = [] := by
              by_contra hne
              exact hapart hne rfl
            subst hnil
            cases hrest
            exact nomatch hc
        | cons d gap =>
            obtain rfl : d = c := Option.some.inj hc
            exact hgap d List.mem_cons_self
      rw [scan_word hword hspace, scan_gap hgap, ih]

/-- The scan reads the tokens of a rendering. -/
theorem Renders.scan_eq {tokens : List T} {text : List α} (h : l.Renders tokens text) :
    l.scan [] text = tokens := by
  obtain ⟨gap, rest, hgap, hrest, rfl⟩ := h
  rw [scan_gap hgap, hrest.scan_eq]

variable (l)

/-- What has been scanned is a rendering, with the characters of the word that has been started. -/
theorem renders_scan_word (text : List α) :
    l.Renders (l.scan [] text) text ∧
      ∀ word, l.IsWord word → l.RendersFrom (l.scan word text) (word ++ text) := by
  induction text with
  | nil =>
      have hgap : l.Gap [] := List.forall_mem_nil _
      refine ⟨⟨[], [], hgap, .nil, rfl⟩, fun word hword => ?_⟩
      have hend : l.scan word [] = [l.word word] := scan_apart hword.ne_nil nofun
      rw [hend]
      exact .word hword hgap (fun h => absurd rfl h) .nil
  | cons c text ih =>
      obtain ⟨⟨gap, rest, hgap, hrest, htext⟩, hletters⟩ := ih
      by_cases hc : l.isSpace c = true
      · have hcons : l.Gap (c :: gap) := List.forall_mem_cons.mpr ⟨hc, hgap⟩
        refine ⟨⟨c :: gap, rest, hcons, ?_, congrArg (c :: ·) htext⟩, fun word hword => ?_⟩
        · rw [scan_space hc]
          exact hrest
        · have hapart := RendersFrom.word hword hcons (fun _ => List.cons_ne_nil c gap) hrest
          rw [List.cons_append, ← htext] at hapart
          rw [scan_apart hword.ne_nil fun d hd => Option.some.inj hd ▸ hc, scan_space hc]
          exact hapart
      have hletter : l.isSpace c = false := Bool.eq_false_iff.mpr hc
      refine ⟨?_, fun word hword => ?_⟩
      · cases hoperator : l.operator c with
        | none =>
            have hword : l.IsWord [c] :=
              ⟨List.cons_ne_nil c [], by simpa using hletter, by simpa using hoperator⟩
            refine ⟨[], c :: text, List.forall_mem_nil _, ?_, rfl⟩
            rw [scan_letter hletter fun _ => hoperator]
            exact hletters [c] hword
        | some token =>
            refine ⟨[], c :: text, List.forall_mem_nil _, ?_, rfl⟩
            have hnext := RendersFrom.operator hoperator hgap hrest
            rw [← htext] at hnext
            rw [scan_operator hoperator]
            exact hnext
      · have hword' : l.IsWord (word ++ [c]) := by
          obtain ⟨d, rest, rfl⟩ := List.exists_cons_of_ne_nil hword.ne_nil
          refine ⟨List.cons_ne_nil _ _, fun e he => ?_, hword.no_operator⟩
          rcases List.mem_append.mp he with he | he
          · exact hword.no_space e he
          · exact List.mem_singleton.mp he ▸ hletter
        have hnext := hletters (word ++ [c]) hword'
        rw [List.append_assoc, List.singleton_append] at hnext
        rw [scan_letter hletter fun h => absurd h hword.ne_nil]
        exact hnext

/-- A text renders the tokens that the scan reads, and no others. -/
theorem renders_iff {tokens : List T} {text : List α} :
    l.Renders tokens text ↔ l.scan [] text = tokens := by
  refine ⟨Renders.scan_eq, ?_⟩
  rintro rfl
  exact (l.renders_scan_word text).1

theorem no_operator_nil (c : α) (hc : ([] : List α).head? = some c) : l.operator c = none :=
  nomatch hc

/-! ### Chunks -/

/-- The scan that knows no operators reads the chunks between the spaces. -/
def chunks : Lexer α (List α) where
  isSpace := l.isSpace
  operator _ := none
  word w := w
  operator_space _ _ := rfl

/-- The operators at the start of a chunk, and the word behind them. -/
def split : List α → List T
  | [] => []
  | c :: rest =>
      match l.operator c with
      | some token => token :: split rest
      | none => [l.word (c :: rest)]

variable {l}

theorem split_append {operators : List α} (hoperators : ∀ c ∈ operators, l.operator c ≠ none)
    (rest : List α) :
    l.split (operators ++ rest) = operators.filterMap l.operator ++ l.split rest := by
  induction operators with
  | nil => rfl
  | cons c operators ih =>
      obtain ⟨token, htoken⟩ := Option.ne_none_iff_exists'.mp (hoperators c List.mem_cons_self)
      have htail := ih fun d hd => hoperators d (List.mem_cons_of_mem c hd)
      rw [List.cons_append, split, htoken, List.filterMap_cons_some htoken, List.cons_append, htail]

theorem split_of_no_operator {word : List α}
    (hword : ∀ c, word.head? = some c → l.operator c = none) : l.split word = l.endWord word := by
  cases word with
  | nil => rfl
  | cons c word => rw [split, hword c rfl, endWord]

theorem flatMap_endWord (chunk : List α) :
    (l.chunks.endWord chunk).flatMap l.split = l.split chunk := by
  cases chunk with
  | nil => rfl
  | cons c chunk => exact List.append_nil _

theorem flatMap_endWord_append {operators word : List α}
    (hoperators : ∀ c ∈ operators, l.operator c ≠ none)
    (hword : ∀ c, word.head? = some c → l.operator c = none) :
    (l.chunks.endWord (operators ++ word)).flatMap l.split
      = operators.filterMap l.operator ++ l.endWord word := by
  rw [flatMap_endWord, split_append hoperators, split_of_no_operator hword]

/-- The two scans side by side: one has read `operators` as tokens, and both have started `word`. -/
theorem flatMap_scan_chunks (text : List α) {operators word : List α}
    (hoperators : ∀ c ∈ operators, l.operator c ≠ none)
    (hword : ∀ c, word.head? = some c → l.operator c = none) :
    (l.chunks.scan (operators ++ word) text).flatMap l.split
      = operators.filterMap l.operator ++ l.scan word text := by
  induction text generalizing operators word with
  | nil => exact flatMap_endWord_append hoperators hword
  | cons c text ih =>
      by_cases hc : l.isSpace c = true
      · have hrest := ih (List.forall_mem_nil _) l.no_operator_nil
        rw [scan_space (l := l.chunks) hc, scan_space hc, List.flatMap_append,
          flatMap_endWord_append hoperators hword, List.append_assoc]
        exact congrArg _ (congrArg _ hrest)
      have hletter : l.isSpace c = false := Bool.eq_false_iff.mpr hc
      rw [scan_letter (l := l.chunks) hletter fun _ => rfl, List.append_assoc]
      -- an operator is one only at the start of a token
      by_cases hoperator : word = [] ∧ l.operator c ≠ none
      · obtain ⟨rfl, hsome⟩ := hoperator
        obtain ⟨token, htoken⟩ := Option.ne_none_iff_exists'.mp hsome
        have hoperators' : ∀ d ∈ operators ++ [c], l.operator d ≠ none := by
          simpa [or_imp, forall_and, hsome] using hoperators
        have hrest := ih hoperators' l.no_operator_nil
        rw [List.append_nil] at hrest
        rw [List.nil_append, hrest, scan_operator htoken, List.filterMap_append,
          List.filterMap_cons_some htoken, List.filterMap_nil, List.append_assoc,
          List.singleton_append]
      · have hnone : word = [] → l.operator c = none := by
          intro hnil
          by_contra hsome
          exact hoperator ⟨hnil, hsome⟩
        have hword' : ∀ d, (word ++ [c]).head? = some d → l.operator d = none := by
          cases word with
          | nil => exact fun d hd => Option.some.inj hd ▸ hnone rfl
          | cons e word => exact hword
        rw [ih hoperators hword', scan_letter hletter hnone]

/-- The tokens are those of the chunks. -/
theorem scan_eq_flatMap (text : List α) :
    l.scan [] text = (l.chunks.scan [] text).flatMap l.split :=
  (flatMap_scan_chunks text (List.forall_mem_nil _) l.no_operator_nil).symm

/-- The first chunk has the characters of the word that has been started in front. -/
theorem scan_chunks_word (word text : List α) :
    l.chunks.scan word text
      = ((text.splitOnP l.isSpace).modifyHead (word ++ ·)).filter fun chunk => !chunk.isEmpty := by
  induction text generalizing word with
  | nil =>
      rw [List.splitOnP_nil, List.modifyHead_cons, List.append_nil]
      cases word with
      | nil => rfl
      | cons c word => rfl
  | cons c text ih =>
      rw [List.splitOnP_cons_eq_if_modifyHead]
      by_cases hc : l.isSpace c = true
      · obtain ⟨chunk, rest, hsplit⟩ :=
          List.exists_cons_of_ne_nil (List.splitOnP_ne_nil l.isSpace text)
        have hrest := ih []
        rw [hsplit, List.modifyHead_cons, List.nil_append] at hrest
        rw [scan_space (l := l.chunks) hc, if_pos hc, hrest, hsplit, List.modifyHead_cons,
          List.append_nil]
        cases word with
        | nil => rfl
        | cons d word => rfl
      · have hletter : l.isSpace c = false := Bool.eq_false_iff.mpr hc
        have happend : (fun chunk : List α => word ++ chunk) ∘ List.cons c
            = fun chunk => word ++ [c] ++ chunk := by
          funext chunk
          exact List.append_cons word c chunk
        rw [scan_letter (l := l.chunks) hletter fun _ => rfl, if_neg hc, ih,
          List.modifyHead_modifyHead, happend]

/-- The chunks are the pieces of the text between the spaces. -/
theorem scan_chunks (text : List α) :
    l.chunks.scan [] text = (text.splitOnP l.isSpace).filter fun chunk => !chunk.isEmpty := by
  have hnil : (fun chunk : List α => [] ++ chunk) = id := rfl
  rw [scan_chunks_word, hnil, List.modifyHead_id]
  rfl

/-- If no piece of the text starts with an operator, the chunks are the words. -/
theorem scan_eq_map {text : List α}
    (hpieces : ∀ piece ∈ text.splitOnP l.isSpace, ∀ c, piece.head? = some c → l.operator c = none) :
    l.scan [] text = (l.chunks.scan [] text).map l.word := by
  rw [scan_eq_flatMap, List.map_eq_flatMap]
  refine List.flatMap_congr fun chunk hchunk => ?_
  rw [scan_chunks] at hchunk
  obtain ⟨hpiece, hne⟩ := List.mem_filter.mp hchunk
  rw [split_of_no_operator (hpieces chunk hpiece)]
  cases chunk with
  | nil => exact absurd hne Bool.false_ne_true
  | cons c letters => rfl

end Lexer

end Lexing
