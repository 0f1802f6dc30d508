import Acos.Shell.Calls

/-!
# The tokenizer of the shell with pipelines

`TokenizerInit` goes through a line once. Its two inner loops, over the space between the tokens and
over the characters of a word, are two states of one scan here: a word that has been started, and
none. The memory for the tokens is taken for granted, as in the source.
-/

namespace Acos.Shell

/-- A line as `getline` returns it. It is not empty, and it is held in memory. -/
structure Line where
  text : Text
  ne_nil : text ≠ []
  length_lt : text.length < 2 ^ 59
deriving DecidableEq

/-- A space, a tab or a newline. -/
def isSpace (c : UInt8) : Bool := c == 32 || c == 9 || c == 10

theorem isSpace_iff {c : UInt8} : isSpace c = true ↔ c = 32 ∨ c = 9 ∨ c = 10 := by
  simp [isSpace, or_assoc]

namespace Pipe

/-- The type of a token that starts with the character. -/
def startType (c : UInt8) : TokenType :=
  if c = 60 then .infile else if c = 62 then .outfile else if c = 124 then .pipe else .word

/-- The end of the word, if one has been started. -/
def endWord (word : Text) : List Token :=
  if word = [] then [] else [⟨word, .word⟩]

/-- The tokens behind the characters of a word that has been started. -/
def scanTokens (word : Text) : Text → List Token
  | [] => endWord word
  | c :: rest =>
      if c = 0 then endWord word
      else if isSpace c then endWord word ++ scanTokens [] rest
      -- operators are only looked for at the start of a token
      else if word = [] ∧ startType c ≠ .word then ⟨[c], startType c⟩ :: scanTokens [] rest
      else scanTokens (word ++ [c]) rest

theorem length_endWord_le (word : Text) : (endWord word).length ≤ word.length := by
  unfold endWord
  split
  · exact Nat.zero_le _
  · rename_i hword
    exact List.length_pos_iff.mpr hword

theorem length_scanTokens_le (word text : Text) :
    (scanTokens word text).length ≤ word.length + text.length := by
  induction text generalizing word with
  | nil => exact length_endWord_le word
  | cons c rest ih =>
      have hword := length_endWord_le word
      unfold scanTokens
      split_ifs
      · exact Nat.le_trans hword (Nat.le_add_right _ _)
      · have hrest := ih []
        simp only [List.length_append, List.length_cons, List.length_nil] at hrest ⊢
        omega
      · have hrest := ih []
        simp only [List.length_cons, List.length_nil] at hrest ⊢
        omega
      · have hrest := ih (word ++ [c])
        simp only [List.length_append, List.length_cons, List.length_nil] at hrest ⊢
        omega

def tokenizerInit (line : Line) : Tokenizer where
  tokens := scanTokens [] line.text
  length_lt := by
    have hlength := length_scanTokens_le [] line.text
    rw [List.length_nil, Nat.zero_add] at hlength
    exact Nat.lt_of_le_of_lt hlength line.length_lt

/-- In `a<b |c` only the pipe is an operator. -/
example : scanTokens [] [97, 60, 98, 32, 124, 99, 10] =
    [⟨[97, 60, 98], .word⟩, ⟨[124], .pipe⟩, ⟨[99], .word⟩] := by decide

end Pipe

end Acos.Shell
