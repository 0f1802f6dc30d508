import Mathlib.Data.List.Basic
import Mathlib.Data.List.TakeWhile
import Acos.Shell.Calls

/-!
# Pipelines

What a line means: the commands are the pieces of the token list between the pipes, and a
redirection takes the word behind it as its file name. Nothing here refers to the shells.
-/

namespace Acos.Shell

def Token.isPipe (t : Token) : Bool := t.type == .pipe

def Token.isRedirection (t : Token) : Bool := t.type == .infile || t.type == .outfile

def count (type : TokenType) (tokens : List Token) : Nat :=
  tokens.countP fun t => t.type == type

def commands (tokens : List Token) : List (List Token) := tokens.splitOnP Token.isPipe

/-- Every redirection is immediately followed by a word. -/
def RedirectionsNamed : List Token → Prop
  | [] => True
  | t :: ts =>
      (t.isRedirection = true → ∃ w ∈ ts.head?, w.type = .word) ∧ RedirectionsNamed ts

/-- The commands are not empty, their redirections have names, and only the first command reads
from a file and only the last one writes to a file. -/
structure WellFormed (tokens : List Token) : Prop where
  nonempty : ∀ c ∈ commands tokens, c ≠ []
  named : ∀ c ∈ commands tokens, RedirectionsNamed c
  infile_le : count .infile tokens ≤ 1
  infile_first : ∀ c ∈ (commands tokens).tail, count .infile c = 0
  outfile_le : count .outfile tokens ≤ 1
  outfile_last : ∀ c ∈ (commands tokens).dropLast, count .outfile c = 0

/-- The words that are not file names, where `redirected` tells whether a redirection stands before
the list. -/
def plainWordsAfter (redirected : Bool) : List Token → List Text
  | [] => []
  | t :: ts =>
      if t.type = .word ∧ redirected = false then t.text :: plainWordsAfter false ts
      else plainWordsAfter t.isRedirection ts

def plainWords : List Token → List Text := plainWordsAfter false

/-- The word behind the first token of this type. -/
def fileName (type : TokenType) (tokens : List Token) : Option Text :=
  match tokens.dropWhile fun t => t.type != type with
  | _ :: w :: _ => some w.text
  | _ => none

/-! ## Tokens and commands -/

@[simp] theorem count_nil (type : TokenType) : count type [] = 0 := rfl

theorem count_cons (type : TokenType) (t : Token) (ts : List Token) :
    count type (t :: ts) = count type ts + if t.type = type then 1 else 0 := by
  simp [count, List.countP_cons]

@[simp] theorem count_append (type : TokenType) (a b : List Token) :
    count type (a ++ b) = count type a + count type b :=
  List.countP_append

theorem count_le_length (type : TokenType) (tokens : List Token) :
    count type tokens ≤ tokens.length :=
  List.countP_le_length

theorem count_eq_zero_iff {type : TokenType} {tokens : List Token} :
    count type tokens = 0 ↔ ∀ t ∈ tokens, t.type ≠ type := by
  simp [count, List.countP_eq_zero]

theorem count_pos_iff {type : TokenType} {tokens : List Token} :
    0 < count type tokens ↔ ∃ t ∈ tokens, t.type = type := by
  simp [count, List.countP_pos_iff]

theorem Token.isPipe_iff {t : Token} : t.isPipe = true ↔ t.type = .pipe := beq_iff_eq

theorem Token.isRedirection_iff {t : Token} :
    t.isRedirection = true ↔ t.type = .infile ∨ t.type = .outfile := by
  simp [Token.isRedirection]

theorem Token.isRedirection_of_word {t : Token} (ht : t.type = .word) :
    t.isRedirection = false := by
  simp [Token.isRedirection, ht]

theorem Token.isRedirection_of_ne {t : Token} (hword : t.type ≠ .word) (hpipe : t.type ≠ .pipe) :
    t.isRedirection = true := by
  rw [Token.isRedirection_iff]
  cases htype : t.type <;> simp_all

theorem plainWordsAfter_word {t : Token} (ht : t.type = .word) (redirected : Bool)
    (ts : List Token) :
    plainWordsAfter redirected (t :: ts) =
      (if redirected = true then [] else [t.text]) ++ plainWordsAfter false ts := by
  cases redirected <;> simp [plainWordsAfter, ht, Token.isRedirection_of_word ht]

theorem plainWordsAfter_redirection {t : Token} (ht : t.isRedirection = true) (redirected : Bool)
    (ts : List Token) : plainWordsAfter redirected (t :: ts) = plainWordsAfter true ts := by
  have hword : t.type ≠ .word := fun hword => by
    simp [Token.isRedirection_of_word hword] at ht
  simp [plainWordsAfter, hword, ht]

theorem commands_ne_nil (tokens : List Token) : commands tokens ≠ [] :=
  List.splitOnP_ne_nil _ _

theorem commands_append_cons (a b : List Token) {p : Token} (hp : p.type = .pipe) :
    commands (a ++ p :: b) = commands a ++ commands b :=
  List.splitOnP_append_cons a b (Token.isPipe_iff.mpr hp)

/-- A command stands between the ends of the line or the pipes next to it. -/
theorem exists_of_commands_eq {tokens c : List Token} {before behind : List (List Token)}
    (heq : commands tokens = before ++ c :: behind) :
    ∃ a b, tokens = a ++ c ++ b ∧
      (before = [] ∧ a = [] ∨ before ≠ [] ∧ ∃ a' p, a = a' ++ [p] ∧ p.type = .pipe) ∧
      (behind = [] ∧ b = [] ∨ behind ≠ [] ∧ ∃ p b', b = p :: b' ∧ p.type = .pipe) := by
  unfold commands at heq
  induction tokens generalizing c before with
  | nil =>
      rw [List.splitOnP_nil] at heq
      cases before with
      | nil =>
          obtain ⟨rfl, rfl⟩ := List.cons.inj heq
          exact ⟨[], [], rfl, .inl ⟨rfl, rfl⟩, .inl ⟨rfl, rfl⟩⟩
      | cons first before => simp at heq
  | cons t ts ih =>
      rw [List.splitOnP_cons_eq_if_modifyHead] at heq
      split_ifs at heq with ht
      · have hpipe := Token.isPipe_iff.mp ht
        cases before with
        | nil =>
            obtain ⟨rfl, rfl⟩ := List.cons.inj heq
            exact ⟨[], t :: ts, rfl, .inl ⟨rfl, rfl⟩,
              .inr ⟨List.splitOnP_ne_nil _ _, t, ts, rfl, hpipe⟩⟩
        | cons first before =>
            obtain ⟨rfl, hrest⟩ := List.cons.inj heq
            obtain ⟨a, b, rfl, hbefore, hbehind⟩ := ih hrest
            refine ⟨t :: a, b, rfl, .inr ⟨List.cons_ne_nil _ _, ?_⟩, hbehind⟩
            rcases hbefore with ⟨_, rfl⟩ | ⟨_, a', p, rfl, hp⟩
            · exact ⟨[], t, rfl, hpipe⟩
            · exact ⟨t :: a', p, rfl, hp⟩
      · obtain ⟨piece, pieces, hpieces⟩ := List.exists_cons_of_ne_nil
          (List.splitOnP_ne_nil Token.isPipe ts)
        rw [hpieces, List.modifyHead_cons] at heq
        cases before with
        | nil =>
            obtain ⟨rfl, rfl⟩ := List.cons.inj heq
            obtain ⟨a, b, htokens, hbefore, hbehind⟩ :=
              ih (show _ = [] ++ piece :: pieces from hpieces)
            rcases hbefore with ⟨_, rfl⟩ | ⟨hne, _⟩
            · exact ⟨[], b, by rw [htokens]; rfl, .inl ⟨rfl, rfl⟩, hbehind⟩
            · exact absurd rfl hne
        | cons first before =>
            obtain ⟨rfl, hrest⟩ := List.cons.inj heq
            obtain ⟨a, b, htokens, hbefore, hbehind⟩ :=
              ih (show _ = (piece :: before) ++ c :: behind by rw [hpieces, hrest]; rfl)
            rcases hbefore with ⟨hnil, _⟩ | ⟨_, a', p, rfl, hp⟩
            · exact absurd hnil (List.cons_ne_nil _ _)
            · exact ⟨t :: (a' ++ [p]), b, by rw [htokens]; rfl,
                .inr ⟨List.cons_ne_nil _ _, t :: a', p, rfl, hp⟩, hbehind⟩

/-- The commands hold the tokens of the line in their order, without the pipes. -/
theorem flatten_commands (tokens : List Token) :
    (commands tokens).flatten = tokens.filter fun t => !t.isPipe := by
  unfold commands
  induction tokens with
  | nil => simp
  | cons t ts ih =>
      rw [List.splitOnP_cons_eq_if_modifyHead]
      split_ifs with ht
      · simp [ht, ih]
      · obtain ⟨piece, pieces, hpieces⟩ := List.exists_cons_of_ne_nil
          (List.splitOnP_ne_nil Token.isPipe ts)
        rw [hpieces, List.flatten_cons] at ih
        rw [hpieces, List.modifyHead_cons, List.flatten_cons, List.cons_append, ih]
        simp [ht]

theorem mem_commands {tokens : List Token} {t : Token} (ht : t ∈ tokens) (hpipe : t.type ≠ .pipe) :
    ∃ c ∈ commands tokens, t ∈ c := by
  have hmem : t ∈ (commands tokens).flatten := by
    rw [flatten_commands, List.mem_filter]
    exact ⟨ht, by simpa [Token.isPipe] using hpipe⟩
  simpa using List.mem_flatten.mp hmem

theorem type_ne_pipe_of_mem_commands {tokens c : List Token} {t : Token} (hc : c ∈ commands tokens)
    (ht : t ∈ c) : t.type ≠ .pipe := by
  have hmem : t ∈ tokens.filter fun t => !t.isPipe := by
    rw [← flatten_commands]
    exact List.mem_flatten.mpr ⟨c, hc, ht⟩
  simpa [Token.isPipe] using (List.mem_filter.mp hmem).2

/-- The last token of a line, if it is not a pipe, ends the last command. -/
theorem exists_concat_mem_commands (a : List Token) {t : Token} (ht : t.type ≠ .pipe) :
    ∃ c, c ++ [t] ∈ commands (a ++ [t]) := by
  obtain ⟨before, c, hcommands⟩ : ∃ before c, commands (a ++ [t]) = before ++ [c] :=
    ⟨_, _, (List.dropLast_append_getLast (commands_ne_nil _)).symm⟩
  obtain ⟨x, y, htokens, hbefore, hbehind⟩ := exists_of_commands_eq hcommands
  obtain ⟨_, rfl⟩ | ⟨hne, _⟩ := hbehind
  · rw [List.append_nil] at htokens
    rcases List.eq_nil_or_concat c with rfl | ⟨c', last, rfl⟩
    · rcases hbefore with ⟨_, rfl⟩ | ⟨_, x', p, rfl, hp⟩
      · simp at htokens
      · rw [List.append_nil] at htokens
        have hlast := List.singleton_inj.mp (List.append_inj_right' htokens rfl)
        exact absurd (hlast ▸ hp) ht
    · rw [List.concat_eq_append, ← List.append_assoc] at htokens
      have hlast := List.singleton_inj.mp (List.append_inj_right' htokens rfl)
      subst hlast
      refine ⟨c', ?_⟩
      rw [hcommands, List.concat_eq_append]
      simp
  · exact absurd rfl hne

theorem commands_of_forall {tokens : List Token} (htokens : ∀ t ∈ tokens, t.type ≠ .pipe) :
    commands tokens = [tokens] :=
  List.splitOnP_eq_singleton fun t ht => by simpa [Token.isPipe] using htokens t ht

/-- A line is one command, or a command, a pipe and a line. -/
theorem commands_eq_cons {tokens c : List Token} {cs : List (List Token)}
    (heq : commands tokens = c :: cs) :
    (tokens = c ∧ cs = []) ∨
      ∃ p ts, tokens = c ++ p :: ts ∧ p.type = .pipe ∧ commands ts = cs := by
  obtain ⟨a, b, htokens, ⟨_, rfl⟩ | ⟨hne, _⟩, hbehind⟩ :=
    exists_of_commands_eq (show commands tokens = [] ++ c :: cs from heq)
  · rw [List.nil_append] at htokens
    rcases hbehind with ⟨rfl, rfl⟩ | ⟨_, p, ts, rfl, hp⟩
    · exact .inl ⟨by rw [htokens, List.append_nil], rfl⟩
    · have hfree : commands c = [c] := commands_of_forall fun t ht =>
        type_ne_pipe_of_mem_commands (heq ▸ List.mem_cons_self) ht
      rw [htokens, commands_append_cons c ts hp, hfree] at heq
      exact .inr ⟨p, ts, htokens, hp, (List.cons.inj heq).2⟩
  · exact absurd rfl hne

theorem length_commands (tokens : List Token) :
    (commands tokens).length = count .pipe tokens + 1 := by
  obtain ⟨c, cs, hcommands⟩ := List.exists_cons_of_ne_nil (commands_ne_nil tokens)
  induction cs generalizing tokens c with
  | nil =>
      obtain ⟨rfl, _⟩ | ⟨_, ts, _, _, hnil⟩ := commands_eq_cons hcommands
      · have hzero : count .pipe tokens = 0 := count_eq_zero_iff.mpr fun t ht =>
          type_ne_pipe_of_mem_commands (hcommands ▸ List.mem_cons_self) ht
        rw [hcommands, hzero]
        rfl
      · exact absurd hnil (commands_ne_nil ts)
  | cons c' cs ih =>
      obtain ⟨_, hnil⟩ | ⟨p, ts, rfl, hp, hrest⟩ := commands_eq_cons hcommands
      · exact absurd hnil (List.cons_ne_nil _ _)
      · have hzero : count .pipe c = 0 := count_eq_zero_iff.mpr fun t ht =>
          type_ne_pipe_of_mem_commands (hcommands ▸ List.mem_cons_self) ht
        have hlength := ih ts c' hrest
        rw [hrest] at hlength
        rw [hcommands, List.length_cons, hlength, count_append, count_cons, hzero]
        simp [hp]

theorem RedirectionsNamed.of_append {a b : List Token} (hnamed : RedirectionsNamed (a ++ b)) :
    RedirectionsNamed b := by
  induction a with
  | nil => exact hnamed
  | cons t ts ih => exact ih hnamed.2

theorem redirectionsNamed_of_forall {c : List Token}
    (hforall : ∀ a t b, c = a ++ t :: b → t.isRedirection = true → ∃ w ∈ b.head?, w.type = .word) :
    RedirectionsNamed c := by
  induction c with
  | nil => trivial
  | cons t ts ih =>
      refine ⟨hforall [] t ts rfl, ih fun a u b hts => ?_⟩
      exact hforall (t :: a) u b (by rw [hts]; rfl)

theorem WellFormed.ne_nil {tokens : List Token} (hwell : WellFormed tokens) : tokens ≠ [] := by
  rintro rfl
  exact hwell.nonempty [] List.mem_cons_self rfl

/-! ## File names -/

theorem fileName_of_count_eq_zero {type : TokenType} {tokens : List Token}
    (hcount : count type tokens = 0) : fileName type tokens = none := by
  have hdrop : tokens.dropWhile (fun t => t.type != type) = [] := by
    rw [List.dropWhile_eq_nil_iff]
    intro t ht
    simpa using count_eq_zero_iff.mp hcount t ht
  unfold fileName
  rw [hdrop]

theorem fileName_append {type : TokenType} {a b : List Token} {t w : Token}
    (hcount : count type a = 0) (ht : t.type = type) :
    fileName type (a ++ t :: w :: b) = some w.text := by
  have hdrop : (a ++ t :: w :: b).dropWhile (fun t => t.type != type) = t :: w :: b := by
    rw [List.dropWhile_append_of_pos fun u hu => by
      simpa using count_eq_zero_iff.mp hcount u hu]
    simp [ht]
  unfold fileName
  rw [hdrop]

/-- In a pipeline, every redirection is followed by its name. -/
theorem WellFormed.exists_word {tokens : List Token} {t : Token} (hwell : WellFormed tokens)
    (hmem : t ∈ tokens) (ht : t.isRedirection = true) :
    ∃ a w b, tokens = a ++ t :: w :: b ∧ w.type = .word := by
  have hpipe : t.type ≠ .pipe := by
    rcases Token.isRedirection_iff.mp ht with h | h <;> simp [h]
  obtain ⟨c, hc, htc⟩ := mem_commands hmem hpipe
  obtain ⟨x, y, rfl⟩ := List.append_of_mem htc
  obtain ⟨w, hw, hwtype⟩ := (hwell.named _ hc).of_append.1 ht
  obtain ⟨y, rfl⟩ := List.head?_eq_some_iff.mp hw
  obtain ⟨before, behind, hcommands⟩ := List.append_of_mem hc
  obtain ⟨a, b, htokens, _⟩ := exists_of_commands_eq hcommands
  exact ⟨a ++ x, w, y ++ b, by rw [htokens]; simp, hwtype⟩

/-! ## Defects of a line -/

/-- The last token besides the pipes has this type. -/
def Awaits (type : TokenType) (tokens : List Token) : Prop :=
  ∃ t ∈ (tokens.filter fun t => !t.isPipe).getLast?, t.type = type

/-- No word has followed the last redirection yet. -/
def AwaitsWord (tokens : List Token) : Prop := Awaits .infile tokens ∨ Awaits .outfile tokens

/-- No word has followed the last pipe yet. -/
def EndsInPipe (tokens : List Token) : Prop :=
  ∃ t ∈ (tokens.filter fun t => !t.isRedirection).getLast?, t.type = .pipe

theorem awaits_concat (type : TokenType) (tokens : List Token) (t : Token) :
    Awaits type (tokens ++ [t]) ↔ if t.type = .pipe then Awaits type tokens else t.type = type := by
  unfold Awaits
  by_cases ht : t.type = .pipe <;> simp [Token.isPipe, ht]

theorem endsInPipe_concat (tokens : List Token) (t : Token) :
    EndsInPipe (tokens ++ [t]) ↔
      if t.isRedirection then EndsInPipe tokens else t.type = .pipe := by
  unfold EndsInPipe
  by_cases ht : t.isRedirection = true <;> simp [ht]

theorem awaitsWord_concat {t : Token} (tokens : List Token) (ht : t.isRedirection = true) :
    AwaitsWord (tokens ++ [t]) := by
  unfold AwaitsWord
  rcases Token.isRedirection_iff.mp ht with h | h <;> simp [awaits_concat, h]

/-- The defects the first pass of the pipeline shell finds: a redirection, or the end of the line,
with no word since the redirection before it, an input file behind a pipe, a pipe with no word
since the pipe before it, two input or two output files, and an output file before the last
command. The last one is found through an `int`: it is overlooked behind `2 ^ 32 - 1` pipes, and
from `2 ^ 31` pipes on it is also seen where it is none. -/
inductive Detected (tokens : List Token) : Prop where
  | redirection (a : List Token) (t : Token) (b : List Token) (htokens : tokens = a ++ t :: b)
      (ht : t.isRedirection = true) (hawaits : AwaitsWord a)
  | lateInfile (a : List Token) (t : Token) (b : List Token) (htokens : tokens = a ++ t :: b)
      (ht : t.type = .infile) (hpipe : 0 < count .pipe a)
  | pipe (a : List Token) (t : Token) (b : List Token) (htokens : tokens = a ++ t :: b)
      (ht : t.type = .pipe) (hends : EndsInPipe a)
  | unnamed (hawaits : AwaitsWord tokens)
  | infiles (hcount : 1 < count .infile tokens)
  | outfiles (hcount : 1 < count .outfile tokens)
  | earlyOutfile (a : List Token) (t : Token) (b : List Token) (htokens : tokens = a ++ t :: b)
      (ht : t.type = .outfile) (hseen : count .pipe a % 2 ^ 32 ≠ 2 ^ 32 - 1)
      (hpipe : count .pipe a ≠ count .pipe tokens ∨ 2 ^ 31 ≤ count .pipe a)

/-- The defects it does not look for: a pipe at either end of the line, an input redirection right
before a pipe, and, as far as the `int` hides it, an output file before the last command. -/
inductive Overlooked (tokens : List Token) : Prop where
  | leading (t : Token) (b : List Token) (htokens : tokens = t :: b) (ht : t.type = .pipe)
  | trailing (a : List Token) (t : Token) (htokens : tokens = a ++ [t]) (ht : t.type = .pipe)
  | infile (a : List Token) (t p : Token) (b : List Token) (htokens : tokens = a ++ t :: p :: b)
      (ht : t.type = .infile) (hp : p.type = .pipe)
  | outfile (a : List Token) (t : Token) (b : List Token) (htokens : tokens = a ++ t :: b)
      (ht : t.type = .outfile) (hpipe : 0 < count .pipe b)

theorem WellFormed.not_overlooked {tokens : List Token} (hwell : WellFormed tokens) :
    ¬ Overlooked tokens := by
  rintro (⟨t, b, rfl, ht⟩ | ⟨a, t, rfl, ht⟩ | ⟨a, t, p, b, rfl, ht, hp⟩ | ⟨a, t, b, rfl, ht, hpipe⟩)
  · refine hwell.nonempty [] ?_ rfl
    rw [← List.nil_append (t :: b), commands_append_cons [] b ht]
    exact List.mem_append_left _ List.mem_cons_self
  · refine hwell.nonempty [] ?_ rfl
    rw [commands_append_cons a [] ht]
    exact List.mem_append_right _ List.mem_cons_self
  · obtain ⟨c, hc⟩ := exists_concat_mem_commands a (by rw [ht]; decide : t.type ≠ .pipe)
    have hsplit : a ++ t :: p :: b = (a ++ [t]) ++ p :: b := by simp
    have hnamed := hwell.named (c ++ [t]) (by
      rw [hsplit, commands_append_cons _ b hp]
      exact List.mem_append_left _ hc)
    obtain ⟨w, hw, _⟩ := hnamed.of_append.1 (Token.isRedirection_iff.mpr (.inl ht))
    exact absurd hw (Option.not_mem_none w)
  · obtain ⟨p, hp, hptype⟩ := count_pos_iff.mp hpipe
    obtain ⟨b₁, b₂, rfl⟩ := List.append_of_mem hp
    have hsplit : a ++ t :: (b₁ ++ p :: b₂) = (a ++ t :: b₁) ++ p :: b₂ := by simp
    obtain ⟨c, hc, htc⟩ := mem_commands (List.mem_append_right a List.mem_cons_self :
      t ∈ a ++ t :: b₁) (by rw [ht]; decide)
    have hnone := hwell.outfile_last c (by
      rw [hsplit, commands_append_cons _ b₂ hptype,
        List.dropLast_append_of_ne_nil (commands_ne_nil b₂)]
      exact List.mem_append_left _ hc)
    exact count_eq_zero_iff.mp hnone t htc ht

/-! A line without the defects that are found is a pipeline unless it has one of the others. -/

section NotDetected

variable {tokens : List Token} (hdetected : ¬ Detected tokens) (hoverlooked : ¬ Overlooked tokens)

include hdetected hoverlooked

theorem nonempty_of_not_detected (hne : tokens ≠ []) : ∀ c ∈ commands tokens, c ≠ [] := by
  rintro c hc rfl
  obtain ⟨before, behind, hcommands⟩ := List.append_of_mem hc
  obtain ⟨a, b, htokens, ⟨_, rfl⟩ | ⟨_, a', p, rfl, hp⟩, ⟨_, rfl⟩ | ⟨_, q, b', rfl, hq⟩⟩ :=
    exists_of_commands_eq hcommands
  · exact hne htokens
  · exact hoverlooked (.leading q b' htokens hq)
  · exact hoverlooked (.trailing a' p (by simpa using htokens) hp)
  · refine hdetected (.pipe (a' ++ [p]) q b' (by simpa using htokens) hq ?_)
    rw [endsInPipe_concat]
    simp [Token.isRedirection, hp]

theorem redirectionsNamed_of_not_detected : ∀ c ∈ commands tokens, RedirectionsNamed c := by
  intro c hc
  obtain ⟨before, behind, hcommands⟩ := List.append_of_mem hc
  obtain ⟨a, b, htokens, _, hbehind⟩ := exists_of_commands_eq hcommands
  refine redirectionsNamed_of_forall fun x t y hsplit ht => ?_
  subst hsplit
  -- a redirection before a pipe is not found in its own place
  have hnotPipe : ∀ p z, y ++ b = p :: z → p.type ≠ .pipe := by
    intro p z hz hp
    have htokens' : tokens = (a ++ x) ++ t :: p :: z := by rw [htokens, ← hz]; simp
    rcases Token.isRedirection_iff.mp ht with htype | htype
    · exact hoverlooked (.infile _ t p z htokens' htype hp)
    · exact hoverlooked (.outfile _ t (p :: z) htokens' htype (by simp [count_cons, hp]))
  cases y with
  | nil =>
      rcases hbehind with ⟨_, rfl⟩ | ⟨_, p, b', rfl, hp⟩
      · refine absurd (Detected.unnamed ?_) hdetected
        have htokens' : tokens = (a ++ x) ++ [t] := by rw [htokens]; simp
        exact htokens' ▸ awaitsWord_concat (a ++ x) ht
      · exact absurd hp (hnotPipe p b' rfl)
  | cons w y =>
      refine ⟨w, rfl, ?_⟩
      by_contra hword
      have hpipe := hnotPipe w (y ++ b) rfl
      refine hdetected (.redirection (a ++ x ++ [t]) w (y ++ b) ?_
        (Token.isRedirection_of_ne hword hpipe) (awaitsWord_concat (a ++ x) ht))
      rw [htokens]
      simp

omit hoverlooked in
theorem infile_first_of_not_detected : ∀ c ∈ (commands tokens).tail, count .infile c = 0 := by
  intro c hc
  rw [count_eq_zero_iff]
  intro t ht htype
  obtain ⟨first, rest, hcommands⟩ := List.exists_cons_of_ne_nil (commands_ne_nil tokens)
  rw [hcommands, List.tail_cons] at hc
  obtain ⟨before, behind, rfl⟩ := List.append_of_mem hc
  obtain ⟨a, b, htokens, ⟨hnil, _⟩ | ⟨_, a', p, rfl, hp⟩, _⟩ :=
    exists_of_commands_eq (hcommands.trans (List.cons_append ..).symm)
  · exact absurd hnil (List.cons_ne_nil _ _)
  · obtain ⟨x, y, rfl⟩ := List.append_of_mem ht
    refine hdetected (.lateInfile (a' ++ [p] ++ x) t (y ++ b) (by rw [htokens]; simp) htype ?_)
    simp only [count_append, count_cons, count_nil, hp, if_true]
    omega

omit hdetected in
theorem outfile_last_of_not_overlooked :
    ∀ c ∈ (commands tokens).dropLast, count .outfile c = 0 := by
  intro c hc
  rw [count_eq_zero_iff]
  intro t ht htype
  obtain ⟨before, behind, hdrop⟩ := List.append_of_mem hc
  have hcommands : commands tokens =
      before ++ c :: (behind ++ [(commands tokens).getLast (commands_ne_nil tokens)]) := by
    rw [← List.cons_append, ← List.append_assoc, ← hdrop, List.dropLast_append_getLast]
  obtain ⟨a, b, htokens, _, ⟨hnil, _⟩ | ⟨_, p, b', rfl, hp⟩⟩ := exists_of_commands_eq hcommands
  · simp at hnil
  · obtain ⟨x, y, rfl⟩ := List.append_of_mem ht
    refine hoverlooked (.outfile (a ++ x) t (y ++ p :: b') (by rw [htokens]; simp) htype ?_)
    simp only [count_append, count_cons, hp, if_true]
    omega

theorem wellFormed_of_not_detected (hne : tokens ≠ []) : WellFormed tokens where
  nonempty := nonempty_of_not_detected hdetected hoverlooked hne
  named := redirectionsNamed_of_not_detected hdetected hoverlooked
  infile_le := Nat.le_of_not_lt fun hcount => hdetected (.infiles hcount)
  infile_first := infile_first_of_not_detected hdetected
  outfile_le := Nat.le_of_not_lt fun hcount => hdetected (.outfiles hcount)
  outfile_last := outfile_last_of_not_overlooked hoverlooked

end NotDetected

end Acos.Shell
