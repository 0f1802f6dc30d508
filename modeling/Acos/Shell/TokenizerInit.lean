import Acos.Lib.Lexing
import Acos.Lib.LinkedList
import Acos.Shell.Tokenizer

/-!
# The tokenizers of the three shells

Every shell has its own `TokenizerInit`. It moves a pointer over the line and links a token for each
piece of it, with the place of the piece in the line. The tokenizers of the two later shells differ
in the characters that are operators, and the first shell knows none.
-/

namespace Acos.Shell

open Lexing LinkedList

theorem isSpace_eq : isSpace = fun c => decide (c ∈ [32, 9, 10]) := by
  funext c
  simp [isSpace, Bool.or_assoc, Bool.beq_eq_decide_eq]

/-- A string in memory, without the terminating zero. -/
structure CLine where
  text : Text
  no_nul : ∀ c ∈ text, c ≠ 0
  length_lt : text.length < 2 ^ 64

/-- The string at the start of what `getline` has read. -/
def Line.cLine (line : Line) : CLine where
  text := line.text.takeWhile (· ≠ 0)
  no_nul c hc := by
    simpa using List.mem_takeWhile_imp hc
  length_lt := by
    have hle := (List.takeWhile_sublist (· ≠ 0) (l := line.text)).length_le
    have hlt := line.length_lt
    omega

/-- A pointer into a line, with the characters from there on. The last one is followed by the
terminating zero. -/
structure Cursor where
  pos : Nat
  rest : Text

def Cursor.char (next : Cursor) : UInt8 := next.rest.headD 0

def Cursor.inc (next : Cursor) : Cursor := ⟨next.pos + 1, next.rest.tail⟩

theorem Cursor.length_inc {next : Cursor} (hchar : next.char ≠ 0) :
    next.inc.rest.length < next.rest.length := by
  obtain ⟨pos, rest⟩ := next
  cases rest with
  | nil => exact absurd rfl hchar
  | cons c rest => exact Nat.lt_succ_self _

/-- The loop over the space before a token. -/
def skipSpace (next : Cursor) : Cursor :=
  if isSpace next.char then skipSpace next.inc else next
termination_by next.rest.length
decreasing_by
  rename_i hspace
  refine Cursor.length_inc fun hzero => ?_
  rw [hzero] at hspace
  exact absurd hspace (by decide)

/-- The loop over the characters of a word. -/
def skipWord (next : Cursor) : Cursor :=
  if next.char ≠ 0 ∧ isSpace next.char = false then skipWord next.inc else next
termination_by next.rest.length
decreasing_by
  rename_i hword
  exact Cursor.length_inc hword.1

theorem skipSpace_eq (pos : Nat) (gap rest : Text) (hgap : ∀ c ∈ gap, isSpace c = true)
    (hrest : ∀ c, rest.head? = some c → isSpace c = false) :
    skipSpace ⟨pos, gap ++ rest⟩ = ⟨pos + gap.length, rest⟩ := by
  induction gap generalizing pos with
  | nil =>
      have hchar : isSpace (rest.headD 0) = false := by
        cases rest with
        | nil => rfl
        | cons c rest => exact hrest c rfl
      rw [skipSpace]
      exact if_neg (Bool.eq_false_iff.mp hchar)
  | cons c gap ih =>
      have htail := ih (pos + 1) fun d hd => hgap d (List.mem_cons_of_mem c hd)
      rw [Nat.add_right_comm, Nat.add_assoc] at htail
      rw [skipSpace]
      exact (if_pos (hgap c List.mem_cons_self)).trans htail

theorem skipWord_eq (pos : Nat) (letters rest : Text)
    (hletters : ∀ c ∈ letters, c ≠ 0 ∧ isSpace c = false)
    (hrest : ∀ c, rest.head? = some c → isSpace c = true) :
    skipWord ⟨pos, letters ++ rest⟩ = ⟨pos + letters.length, rest⟩ := by
  induction letters generalizing pos with
  | nil =>
      have hchar : ¬ ((rest.headD 0) ≠ 0 ∧ isSpace (rest.headD 0) = false) := by
        cases rest with
        | nil => decide
        | cons c rest => exact fun h => Bool.eq_false_iff.mp h.2 (hrest c rfl)
      rw [skipWord]
      exact if_neg hchar
  | cons c letters ih =>
      have htail := ih (pos + 1) fun d hd => hletters d (List.mem_cons_of_mem c hd)
      rw [Nat.add_right_comm, Nat.add_assoc] at htail
      rw [skipWord]
      exact (if_pos (hletters c List.mem_cons_self)).trans htail

theorem length_skipSpace_le (next : Cursor) :
    (skipSpace next).rest.length ≤ next.rest.length := by
  fun_induction skipSpace next with
  | case1 next hspace ih =>
      refine ih.trans (Nat.le_of_lt (Cursor.length_inc fun hzero => ?_))
      rw [hzero] at hspace
      exact absurd hspace (by decide)
  | case2 next hspace => exact Nat.le_refl _

theorem length_skipWord_le (next : Cursor) : (skipWord next).rest.length ≤ next.rest.length := by
  fun_induction skipWord next with
  | case1 next hword ih => exact ih.trans (Nat.le_of_lt (Cursor.length_inc hword.1))
  | case2 next hword => exact Nat.le_refl _

/-! ### The tokens -/

/-- A token without the link to the next one. The tokens of the first shell have no type. -/
structure Placed (τ : Type) where
  start : Nat
  len : Nat
  type : τ
deriving DecidableEq

/-- The characters of the token. -/
def Placed.text {τ : Type} (text : Text) (token : Placed τ) : Text :=
  (text.drop token.start).take token.len

theorem Placed.text_append {τ : Type} (before w after : Text) (type : τ) :
    Placed.text (before ++ w ++ after) ⟨before.length, w.length, type⟩ = w := by
  rw [Placed.text, List.append_assoc, List.drop_left, List.take_left]

/-- The tokens are pieces of the line between two positions, one behind the other. -/
def Within {τ : Type} (low high : Nat) : List (Placed τ) → Prop
  | [] => low ≤ high
  | token :: tokens =>
      low ≤ token.start ∧ 0 < token.len ∧ Within (token.start + token.len) high tokens

section Within

variable {τ : Type} {low high : Nat} {tokens : List (Placed τ)}

theorem Within.le (hwithin : Within low high tokens) : low + tokens.length ≤ high := by
  induction tokens generalizing low with
  | nil => exact hwithin
  | cons token tokens ih =>
      obtain ⟨hlow, hlen, hrest⟩ := hwithin
      have hle := ih hrest
      rw [List.length_cons]
      omega

theorem Within.mono {low' : Nat} (hwithin : Within low high tokens) (hle : low' ≤ low) :
    Within low' high tokens := by
  cases tokens with
  | nil => exact Nat.le_trans hle hwithin
  | cons token tokens => exact ⟨hle.trans hwithin.1, hwithin.2⟩

theorem Within.mem (hwithin : Within low high tokens) :
    ∀ token ∈ tokens, low ≤ token.start ∧ 0 < token.len ∧ token.start + token.len ≤ high := by
  induction tokens generalizing low with
  | nil => exact List.forall_mem_nil _
  | cons token tokens ih =>
      obtain ⟨hlow, hlen, hrest⟩ := hwithin
      have hle := hrest.le
      exact List.forall_mem_cons.mpr ⟨⟨hlow, hlen, by omega⟩, ih (hrest.mono (by omega))⟩

theorem Within.pairwise (hwithin : Within low high tokens) :
    tokens.Pairwise fun p q => p.start + p.len ≤ q.start := by
  induction tokens generalizing low with
  | nil => exact .nil
  | cons token tokens ih =>
      exact .cons (fun q hq => (hwithin.2.2.mem q hq).1) (ih hwithin.2.2)

end Within

/-- The list of the tokens with the pointer to the last one, and `token_count`. -/
structure Built (τ : Type) where
  list : Linked (Placed τ)
  tokenCount : Nat

def Built.empty {τ : Type} : Built τ := ⟨.empty, 0⟩

def Built.add {τ : Type} (built : Built τ) (token : Placed τ) : Built τ :=
  ⟨built.list.append token, (built.tokenCount + 1) % 2 ^ 64⟩

/-- The memory and the count for these tokens. -/
def Built.ofTokens {τ : Type} (tokens : List (Placed τ)) : Built τ :=
  ⟨.ofList tokens, tokens.length % 2 ^ 64⟩

theorem Built.add_ofTokens {τ : Type} (tokens : List (Placed τ)) (token : Placed τ) :
    (ofTokens tokens).add token = ofTokens (tokens ++ [token]) := by
  rw [add, ofTokens, append_ofList, ofTokens, List.length_append, List.length_singleton,
    Nat.mod_add_mod]

/-- The tokens a walk along the list meets, with their texts. -/
def Built.tokens {τ T : Type} (token : Text → τ → T) (text : Text) (built : Built τ) : List T :=
  built.list.toList.map fun p => token (p.text text) p.type

/-- What the `switch` of a tokenizer makes of the first character of a token. -/
structure Dialect (τ : Type) where
  startType : UInt8 → τ
  word : τ
  startType_space : ∀ c, isSpace c = true → startType c = word

namespace Dialect

variable {τ : Type} [DecidableEq τ] (d : Dialect τ)

/-- The pointer behind a token. The characters of a word are not looked at again. -/
def tokenEnd (start : Cursor) : Cursor :=
  if d.startType start.char = d.word then skipWord start.inc else start.inc

theorem length_tokenEnd {start : Cursor} (hchar : start.char ≠ 0) :
    (d.tokenEnd start).rest.length < start.rest.length := by
  have hinc := Cursor.length_inc hchar
  unfold tokenEnd
  split_ifs
  · exact (length_skipWord_le start.inc).trans_lt hinc
  · exact hinc

/-- The loop of `TokenizerInit`. -/
def scanLoop (built : Built τ) (next : Cursor) : Built τ :=
  let start := skipSpace next
  if start.char = 0 then built
  else
    let next := d.tokenEnd start
    scanLoop (built.add ⟨start.pos, next.pos - start.pos, d.startType start.char⟩) next
termination_by next.rest.length
decreasing_by
  rename_i hchar
  exact (d.length_tokenEnd hchar).trans_le (length_skipSpace_le _)

def tokenizerInit (line : CLine) : Built τ := d.scanLoop .empty ⟨0, line.text⟩

/-- The tokens of a line, each given its text and its type. -/
def lexer {T : Type} (token : Text → τ → T) : Lexer UInt8 T where
  isSpace := isSpace
  operator c := if d.startType c = d.word then none else some (token [c] (d.startType c))
  word w := token w d.word
  operator_space c hc := by
    rw [if_pos (d.startType_space c hc)]

/-! ### What the loop builds -/

variable {d}

/-- One token is added. -/
theorem scanLoop_add {built : Built τ} {next start : Cursor} {len : Nat} {after : Text}
    (hstart : skipSpace next = start) (hchar : start.char ≠ 0)
    (hend : d.tokenEnd start = ⟨start.pos + len, after⟩) :
    d.scanLoop built next
      = d.scanLoop (built.add ⟨start.pos, len, d.startType start.char⟩)
        ⟨start.pos + len, after⟩ := by
  rw [scanLoop, hstart]
  refine (if_neg hchar).trans ?_
  simp only [hend, Nat.add_sub_cancel_left]

variable {T : Type} (token : Text → τ → T)

/-- At the first character of a token the loop and the lexer take the same piece of the line. -/
theorem tokenEnd_eq (pos : Nat) {c : UInt8} {rest : Text} (hnul : ∀ e ∈ rest, e ≠ 0)
    (hc : isSpace c = false) :
    ∃ w after, c :: rest = w ++ after ∧ w ≠ [] ∧
      d.tokenEnd ⟨pos, c :: rest⟩ = ⟨pos + w.length, after⟩ ∧
      (d.lexer token).scan [] (c :: rest)
        = token w (d.startType c) :: (d.lexer token).scan [] after := by
  by_cases hword : d.startType c = d.word
  · obtain ⟨letters, after, rfl, hletters, hafter⟩ := exists_span (fun e => !isSpace e) rest
    simp only [Bool.not_eq_true', Bool.not_eq_false'] at hletters hafter
    have hend := skipWord_eq (pos + 1) letters after
      (fun e he => ⟨hnul e (List.mem_append_left after he), hletters e he⟩) hafter
    rw [Nat.add_right_comm, Nat.add_assoc] at hend
    have hisWord : (d.lexer token).IsWord (c :: letters) :=
      ⟨List.cons_ne_nil _ _, List.forall_mem_cons.mpr ⟨hc, hletters⟩,
        fun e he => Option.some.inj he ▸ if_pos hword⟩
    refine ⟨c :: letters, after, rfl, List.cons_ne_nil _ _, (if_pos hword).trans hend, ?_⟩
    rw [hword]
    exact Lexer.scan_word hisWord hafter
  · exact ⟨[c], rest, rfl, List.cons_ne_nil _ _, if_neg hword,
      Lexer.scan_operator (if_neg hword) rest⟩

/-- From a position on, the loop adds the tokens of the rest of the line. -/
theorem scanLoop_eq (before rest : Text) (hnul : ∀ c ∈ rest, c ≠ 0) :
    ∃ tokens,
      (∀ built, d.scanLoop (.ofTokens built) ⟨before.length, rest⟩ = .ofTokens (built ++ tokens)) ∧
      tokens.map (fun p => token (p.text (before ++ rest)) p.type) = (d.lexer token).scan [] rest ∧
      Within before.length (before ++ rest).length tokens := by
  induction hn : rest.length using Nat.strong_induction_on generalizing before rest with
  | _ n ih =>
      obtain ⟨gap, tail, rfl, hgap, htail⟩ := exists_span isSpace rest
      have hskip := skipSpace_eq before.length gap tail hgap htail
      have hscan := Lexer.scan_gap (l := d.lexer token) hgap tail
      cases tail with
      | nil =>
          refine ⟨[], fun built => ?_, hscan.symm, ?_⟩
          · rw [scanLoop, hskip, List.append_nil]
            rfl
          · rw [List.length_append]
            exact Nat.le_add_right _ _
      | cons c tail =>
          have hc := htail c rfl
          have htailNul : ∀ e ∈ tail, e ≠ 0 := fun e he =>
            hnul e (List.mem_append_right gap (List.mem_cons_of_mem c he))
          have hchar : c ≠ 0 := hnul c (List.mem_append_right gap List.mem_cons_self)
          obtain ⟨w, after, hw, hne, hend, hstep⟩ :=
            tokenEnd_eq (d := d) token (before.length + gap.length) htailNul hc
          have hwhole : before ++ (gap ++ c :: tail) = before ++ gap ++ w ++ after := by
            rw [hw, List.append_assoc, List.append_assoc]
          have hpos : before.length + gap.length + w.length = (before ++ gap ++ w).length := by
            rw [List.length_append, List.length_append]
          have hlength : after.length < n := by
            have hpositive := List.length_pos_iff.mpr hne
            rw [← hn, hw, List.length_append, List.length_append]
            omega
          have hafterNul : ∀ e ∈ after, e ≠ 0 := fun e he =>
            hnul e (List.mem_append_right gap (hw ▸ List.mem_append_right w he))
          obtain ⟨tokens, hloop, htexts, hwithin⟩ :=
            ih after.length hlength (before ++ gap ++ w) after hafterNul rfl
          refine ⟨⟨before.length + gap.length, w.length, d.startType c⟩ :: tokens, fun built => ?_,
            ?_, ?_⟩
          · rw [List.append_cons built, scanLoop_add hskip hchar hend, hpos, Built.add_ofTokens]
            exact hloop _
          · rw [hwhole, List.map_cons, ← List.length_append, Placed.text_append, htexts, hscan,
              hstep]
          · rw [hwhole]
            exact ⟨Nat.le_add_right _ _, List.length_pos_iff.mpr hne, hpos ▸ hwithin⟩

/-- `TokenizerInit` links the tokens of the line in their order. -/
theorem tokenizerInit_eq (line : CLine) :
    ∃ tokens, d.tokenizerInit line = .ofTokens tokens ∧
      tokens.map (fun p => token (p.text line.text) p.type) = (d.lexer token).scan [] line.text ∧
      Within 0 line.text.length tokens := by
  obtain ⟨tokens, hloop, htexts, hwithin⟩ := scanLoop_eq (d := d) token [] line.text line.no_nul
  exact ⟨tokens, hloop [], htexts, hwithin⟩

theorem tokens_tokenizerInit (line : CLine) :
    (d.tokenizerInit line).tokens token line.text = (d.lexer token).scan [] line.text := by
  obtain ⟨tokens, hbuilt, htexts, -⟩ := tokenizerInit_eq (d := d) token line
  rw [hbuilt, ← htexts, Built.tokens, Built.ofTokens, toList_ofList]

/-- The operators of the table are the characters that do not start a word. -/
def HasOperators (d : Dialect τ) (operators : List (UInt8 × τ)) : Prop :=
  ∀ c, operators.lookup c = if d.startType c = d.word then none else some (d.startType c)

theorem HasOperators.lexer_operator {operators : List (UInt8 × τ)}
    (htable : d.HasOperators operators) (c : UInt8) :
    (d.lexer token).operator c = (operators.lookup c).map (token [c]) := by
  rw [htable c]
  by_cases hword : d.startType c = d.word
  · rw [if_pos hword, Option.map_none]
    exact if_pos hword
  · rw [if_neg hword, Option.map_some]
    exact if_neg hword

/-- For every operator of the table that the chunk starts with a token of its own, and then the rest
of the chunk as one word, if there is any. -/
def tokensOfChunk (operators : List (UInt8 × τ)) (word : τ) (chunk : Text) : List T :=
  let isOperator (c : UInt8) : Bool := (operators.lookup c).isSome
  let rest := chunk.dropWhile isOperator
  (chunk.takeWhile isOperator).filterMap (fun c => (operators.lookup c).map (token [c])) ++
    if rest = [] then [] else [token rest word]

theorem HasOperators.tokensOfChunk_eq {operators : List (UInt8 × τ)}
    (htable : d.HasOperators operators) (chunk : Text) :
    tokensOfChunk token operators d.word chunk = (d.lexer token).split chunk := by
  induction chunk with
  | nil => rfl
  | cons c chunk ih =>
      have hoperator := htable.lexer_operator token c
      cases hlookup : operators.lookup c with
      | none =>
          rw [hlookup] at hoperator
          rw [Lexer.split, hoperator]
          simp [tokensOfChunk, hlookup, lexer]
      | some type =>
          rw [hlookup] at hoperator
          have hsome : (operators.lookup c).isSome = true := by simp [hlookup]
          have hfirst : (operators.lookup c).map (token [c]) = some (token [c] type) := by
            simp [hlookup]
          rw [Lexer.split, hoperator, Option.map_some, ← ih]
          unfold tokensOfChunk
          dsimp only
          rw [List.takeWhile_cons_of_pos (p := fun c => (operators.lookup c).isSome) hsome,
            List.dropWhile_cons_of_pos (p := fun c => (operators.lookup c).isSome) hsome,
            List.filterMap_cons_some (f := fun c => (operators.lookup c).map (token [c])) hfirst,
            List.cons_append]

end Dialect

/-! ### The shell without redirections -/

namespace Base

theorem isSpace_skipSpace (next : Cursor) : isSpace (skipSpace next).char = false := by
  fun_induction skipSpace next with
  | case1 next hspace ih => exact ih
  | case2 next hspace => exact Bool.eq_false_iff.mpr hspace

theorem skipWord_inc {start : Cursor} (hchar : start.char ≠ 0)
    (hspace : isSpace start.char = false) : skipWord start = skipWord start.inc := by
  rw [skipWord, if_pos ⟨hchar, hspace⟩]

/-- The loop of `TokenizerInit`. -/
def scanLoop (built : Built Unit) (next : Cursor) : Built Unit :=
  let start := skipSpace next
  if start.char = 0 then built
  else
    let next := skipWord start
    scanLoop (built.add ⟨start.pos, next.pos - start.pos, ()⟩) next
termination_by next.rest.length
decreasing_by
  rename_i hchar
  have hinc := (length_skipWord_le _).trans_lt (Cursor.length_inc hchar)
  rw [← skipWord_inc hchar (isSpace_skipSpace _)] at hinc
  exact hinc.trans_le (length_skipSpace_le _)

def tokenizerInit (line : CLine) : Built Unit := scanLoop .empty ⟨0, line.text⟩

/-- Every character starts a word. -/
def dialect : Dialect Unit where
  startType _ := ()
  word := ()
  startType_space _ _ := rfl

theorem scanLoop_eq (built : Built Unit) (next : Cursor) :
    scanLoop built next = dialect.scanLoop built next := by
  fun_induction scanLoop built next with
  | case1 built next start hchar =>
      rw [Dialect.scanLoop]
      exact (if_pos hchar).symm
  | case2 built next start hchar next' ih =>
      have hend : dialect.tokenEnd start = next' :=
        (if_pos rfl).trans (skipWord_inc hchar (isSpace_skipSpace next)).symm
      have hloop : dialect.scanLoop built next
          = dialect.scanLoop (built.add ⟨start.pos, (dialect.tokenEnd start).pos - start.pos, ()⟩)
            (dialect.tokenEnd start) := by
        rw [Dialect.scanLoop]
        exact if_neg hchar
      rw [ih, hloop, hend]

theorem tokenizerInit_eq (line : CLine) : tokenizerInit line = dialect.tokenizerInit line :=
  scanLoop_eq _ _

end Base

/-! ### The shell with redirections -/

namespace Io

inductive TokenType where
  | word
  | infile
  | outfile
deriving DecidableEq, Repr

structure Token where
  text : Text
  type : TokenType
deriving DecidableEq, Repr

/-- The type of a token that starts with the character. -/
def startType (c : UInt8) : TokenType :=
  if c = 60 then .infile else if c = 62 then .outfile else .word

def dialect : Dialect TokenType where
  startType := startType
  word := .word
  startType_space c hc := by
    rcases isSpace_iff.mp hc with rfl | rfl | rfl <;> rfl

/-- `<` and `>` are the operators. -/
theorem dialect_hasOperators : dialect.HasOperators [(60, .infile), (62, .outfile)] := by
  intro c
  change _ = if startType c = .word then none else some (startType c)
  unfold startType
  by_cases hless : c = 60
  · subst hless
    rfl
  by_cases hgreater : c = 62
  · subst hgreater
    rfl
  simp [List.lookup_eq_none_iff, hless, hgreater]

def tokenizerInit (line : CLine) : Built TokenType := dialect.tokenizerInit line

end Io

/-! ### The shell with pipelines -/

namespace Pipe

def dialect : Dialect TokenType where
  startType := startType
  word := .word
  startType_space c hc := by
    rcases isSpace_iff.mp hc with rfl | rfl | rfl <;> rfl

/-- `<`, `>` and `|` are the operators. -/
theorem dialect_hasOperators :
    dialect.HasOperators [(60, .infile), (62, .outfile), (124, .pipe)] := by
  intro c
  change _ = if startType c = .word then none else some (startType c)
  unfold startType
  by_cases hless : c = 60
  · subst hless
    rfl
  by_cases hgreater : c = 62
  · subst hgreater
    rfl
  by_cases hbar : c = 124
  · subst hbar
    rfl
  simp [List.lookup_eq_none_iff, hless, hgreater, hbar]

/-- `TokenizerInit` with the list it makes in memory. -/
def tokenizerInitMemory (line : CLine) : Built TokenType := dialect.tokenizerInit line

theorem endWord_eq (word : Text) : endWord word = (dialect.lexer Token.mk).endWord word := by
  cases word with
  | nil => rfl
  | cons c word => rfl

/-- The scan up to the first zero is that of the lexer. -/
theorem scanTokens_eq (word text : Text) :
    scanTokens word text = (dialect.lexer Token.mk).scan word (text.takeWhile (· ≠ 0)) := by
  induction text generalizing word with
  | nil => exact endWord_eq word
  | cons c text ih =>
      by_cases hzero : c = 0
      · subst hzero
        exact endWord_eq word
      rw [List.takeWhile_cons_of_pos (by simpa using hzero), scanTokens, if_neg hzero]
      by_cases hspace : isSpace c = true
      · rw [if_pos hspace, Lexer.scan_space hspace, endWord_eq, ih]
      have hletter : isSpace c = false := Bool.eq_false_iff.mpr hspace
      rw [if_neg hspace]
      by_cases hoperator : word = [] ∧ startType c ≠ .word
      · obtain ⟨rfl, htype⟩ := hoperator
        rw [if_pos ⟨rfl, htype⟩, Lexer.scan_operator (if_neg htype), ih]
        rfl
      · have hnone : word = [] → (dialect.lexer Token.mk).operator c = none := by
          intro hnil
          exact if_pos (not_not.mp fun htype => hoperator ⟨hnil, htype⟩)
        rw [if_neg hoperator, Lexer.scan_letter hletter hnone, ih]

/-- The tokens `Exec` is called with are those in memory. -/
theorem tokens_eq (line : Line) :
    (Pipe.tokenizerInit line).tokens
      = (tokenizerInitMemory line.cLine).tokens Token.mk line.cLine.text :=
  (scanTokens_eq [] line.text).trans (Dialect.tokens_tokenizerInit Token.mk line.cLine).symm

/-- The format of a line, character by character: `<`, `>` and `|` are operators, and tokens are kept
apart by spaces, tabs and newlines. -/
def format : Lexer UInt8 Token where
  isSpace c := c ∈ [32, 9, 10]
  operator c :=
    ([(60, .infile), (62, .outfile), (124, .pipe)].lookup c).map fun type => ⟨[c], type⟩
  word w := ⟨w, .word⟩
  operator_space c hc := by
    simp only [List.mem_cons, List.not_mem_nil, or_false, decide_eq_true_eq] at hc
    rcases hc with rfl | rfl | rfl <;> rfl

/-- The text shows the tokens in their order, with spaces before, between and behind them. An
operator is its one character. A word is not empty and has no space in it, it does not start with an
operator, and there is a space between it and the next token. -/
def Rendering (tokens : List Token) (text : Text) : Prop := format.Renders tokens text

/-- The `switch` and the loops of the tokenizer know the characters of the format. -/
theorem lexer_eq_format : dialect.lexer Token.mk = format := by
  have hoperator : (dialect.lexer Token.mk).operator = format.operator :=
    funext (dialect_hasOperators.lexer_operator Token.mk)
  unfold Dialect.lexer format at hoperator ⊢
  congr 1
  exact isSpace_eq

/-- **The format of a line.** The tokens `TokenizerInit` links from the head to the null pointer are
those the line is a rendering of, and it is a rendering of no others. They are pieces of the line,
one behind the other. -/
theorem tokenizerInit_rendering (line : CLine) :
    ∃ placed,
      Chain (tokenizerInitMemory line).list.memory (tokenizerInitMemory line).list.head placed
      ∧ (tokenizerInitMemory line).tokenCount = placed.length
      ∧ (∀ tokens, Rendering tokens line.text
          ↔ placed.map (fun p => ⟨p.text line.text, p.type⟩) = tokens)
      ∧ (∀ p ∈ placed, 0 < p.len ∧ p.start + p.len ≤ line.text.length)
      ∧ placed.Pairwise fun p q => p.start + p.len ≤ q.start := by
  obtain ⟨placed, hbuilt, htexts, hwithin⟩ := Dialect.tokenizerInit_eq (d := dialect) Token.mk line
  have hcount : placed.length < 2 ^ 64 := by
    have hle := hwithin.le
    have hlt := line.length_lt
    omega
  rw [tokenizerInitMemory, hbuilt]
  refine ⟨placed, chain_ofList placed, Nat.mod_eq_of_lt hcount, fun tokens => ?_,
    fun p hp => (hwithin.mem p hp).2, hwithin.pairwise⟩
  rw [htexts, lexer_eq_format]
  exact format.renders_iff

end Pipe

/-! ### The tokens of the three shells -/

theorem Base.tokens_tokenizerInit (line : CLine) :
    (Base.tokenizerInit line).tokens (fun w _ => w) line.text
      = (line.text.splitOnP isSpace).filter fun chunk => !chunk.isEmpty := by
  rw [Base.tokenizerInit_eq, Dialect.tokens_tokenizerInit]
  exact Lexer.scan_chunks (l := Base.dialect.lexer fun w _ => w) line.text

section Family

variable {τ T : Type} [DecidableEq τ] (d : Dialect τ) (token : Text → τ → T) (line : CLine)

theorem Dialect.scan_chunks_lexer :
    (d.lexer token).chunks.scan [] line.text
      = (Base.tokenizerInit line).tokens (fun w _ => w) line.text := by
  rw [Base.tokens_tokenizerInit]
  exact Lexer.scan_chunks line.text

variable {d} {operators : List (UInt8 × τ)}

theorem Dialect.HasOperators.tokens_eq_flatMap (htable : d.HasOperators operators) :
    (d.tokenizerInit line).tokens token line.text
      = ((Base.tokenizerInit line).tokens (fun w _ => w) line.text).flatMap
        (tokensOfChunk token operators d.word) := by
  have hsplit : tokensOfChunk token operators d.word = (d.lexer token).split :=
    funext (htable.tokensOfChunk_eq token)
  rw [tokens_tokenizerInit, Lexer.scan_eq_flatMap, scan_chunks_lexer, hsplit]

theorem Dialect.HasOperators.tokens_eq_map (htable : d.HasOperators operators)
    (hpieces : ∀ piece ∈ line.text.splitOnP (· ∈ [32, 9, 10]), ∀ c, piece.head? = some c →
      operators.lookup c = none) :
    (d.tokenizerInit line).tokens token line.text
      = ((Base.tokenizerInit line).tokens (fun w _ => w) line.text).map (token · d.word) := by
  rw [tokens_tokenizerInit, ← d.scan_chunks_lexer token]
  refine Lexer.scan_eq_map fun piece hpiece c hc => ?_
  rw [htable.lexer_operator, hpieces piece (isSpace_eq ▸ hpiece) c hc, Option.map_none]

end Family

/-- **One family.** The tokens of the two later shells are those of the first one, each replaced by
the operators it starts with and by the word that is left of it. Where no piece between two spaces
starts with an operator, they are the same words. -/
theorem tokenizers_agree (line : CLine) :
    let words := (Base.tokenizerInit line).tokens (fun w _ => w) line.text
    let ioTokens := (Io.tokenizerInit line).tokens Io.Token.mk line.text
    let pipeTokens := (Pipe.tokenizerInitMemory line).tokens Token.mk line.text
    ioTokens
        = words.flatMap (Dialect.tokensOfChunk Io.Token.mk [(60, .infile), (62, .outfile)] .word)
      ∧ pipeTokens
        = words.flatMap
          (Dialect.tokensOfChunk Token.mk [(60, .infile), (62, .outfile), (124, .pipe)] .word)
      ∧ ((∀ piece ∈ line.text.splitOnP (· ∈ [32, 9, 10]), ∀ c, piece.head? = some c →
            c ∉ [60, 62, 124]) →
          ioTokens = words.map (⟨·, .word⟩) ∧ pipeTokens = words.map (⟨·, .word⟩)) := by
  refine ⟨Io.dialect_hasOperators.tokens_eq_flatMap Io.Token.mk line,
    Pipe.dialect_hasOperators.tokens_eq_flatMap Token.mk line, fun hpieces => ⟨?_, ?_⟩⟩
  · refine Io.dialect_hasOperators.tokens_eq_map Io.Token.mk line fun piece hpiece c hc => ?_
    have hoperators := hpieces piece hpiece c hc
    simp only [List.mem_cons, not_or] at hoperators
    simp [List.lookup_eq_none_iff, hoperators.1, hoperators.2.1]
  · refine Pipe.dialect_hasOperators.tokens_eq_map Token.mk line fun piece hpiece c hc => ?_
    have hoperators := hpieces piece hpiece c hc
    simp only [List.mem_cons, not_or] at hoperators
    simp [List.lookup_eq_none_iff, hoperators.1, hoperators.2.1, hoperators.2.2.1]

/-- The line `ls -l`. -/
theorem tokenizers_agree_words :
    let line : CLine := ⟨[108, 115, 32, 45, 108], by simp, by simp⟩
    (Io.tokenizerInit line).tokens Io.Token.mk line.text = [⟨[108, 115], .word⟩, ⟨[45, 108], .word⟩]
      ∧ (Pipe.tokenizerInitMemory line).tokens Token.mk line.text
        = [⟨[108, 115], .word⟩, ⟨[45, 108], .word⟩] := by
  intro line
  have hpieces : line.text.splitOnP (· ∈ [32, 9, 10]) = [[108, 115], [45, 108]] := rfl
  obtain ⟨hio, hpipe⟩ := (tokenizers_agree line).2.2 (by rw [hpieces]; simp)
  rw [Base.tokens_tokenizerInit] at hio hpipe
  exact ⟨hio, hpipe⟩

end Acos.Shell
