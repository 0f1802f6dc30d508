import Acos.Lib.ByteMemory
import Acos.Malloc.Model

/-!
# Failure and the limits of sizes

A failed system call replies with one of 4095 negated error numbers. The allocator compares the
reply with `MAP_FAILED`, which is only one of them, and it adds the length of the header to the size
without a look at the overflow.
-/

namespace Acos.Malloc

open Program ByteMemory

/-- The reply of a system call that has failed. -/
def IsError (reply : Word) : Prop :=
  ∃ errno, 1 ≤ errno ∧ errno ≤ 4095 ∧ reply = -BitVec.ofNat 64 errno

/-- The reply of a system call that has made a mapping. -/
def IsAddress (reply : Word) : Prop := reply.toNat % 4096 = 0

theorem IsError.lt {reply : Word} (herror : IsError reply) : 2 ^ 64 - 4096 < reply.toNat := by
  obtain ⟨errno, hlow, hhigh, rfl⟩ := herror
  rw [BitVec.toNat_neg, BitVec.toNat_ofNat]
  omega

theorem IsAddress.not_isError {reply : Word} (haddress : IsAddress reply) : ¬IsError reply := by
  intro herror
  have hlt := herror.lt
  have hbound := reply.isLt
  unfold IsAddress at haddress
  omega

theorem isError_mapFailed : IsError mapFailed := ⟨1, le_rfl, by decide, rfl⟩

/-- The length of the mapping a call asks for. -/
def Call.asked : Call → Option Word
  | .mmap _ length _ _ _ _ => some length
  | .mremap _ _ newSize _ _ => some newSize
  | _ => none

/-- The call changes no memory and no mapping if it fails. -/
def Call.Harmless : Call → Prop
  | .mmap _ _ _ _ _ _ | .mremap _ _ _ _ _ | .load _ => True
  | .munmap _ _ | .exit _ | .store _ _ => False

/-- What an allocation of `size` bytes is to do when the kernel replies with `reply`. -/
structure Meets (size reply : Word) (execution : Execution Reply Word) : Prop where
  null_iff : execution.outcome = .returned null ↔ IsError reply
  untouched : IsError reply → ∀ c ∈ execution.calls, c.Harmless
  enough : ∀ q, execution.outcome = .returned q → q ≠ null →
    ∃ c ∈ execution.calls, ∃ length, c.asked = some length ∧
      size.toNat + 8 ≤ length.toNat ∧ ∀ x, Within q size.toNat x → Within reply length.toNat x

/-- The kernel replies with `reply` to a call that allocates. The header of the old block can be
read, and the header of a new one can be written. -/
structure Answers (env : Env Reply) (reply : Word) : Prop where
  mmap : ∀ past addr length prot flags fd offset,
    env past (.mmap addr length prot flags fd offset) = some reply
  mremap : ∀ past oldAddr oldSize newSize flags newAddr,
    env past (.mremap oldAddr oldSize newSize flags newAddr) = some reply
  load : ∀ past addr, ∃ value, env past (.load addr) = some value
  store : IsAddress reply → ∀ past value, env past (.store reply value) = some ()

section Allocation

variable {size reply : Word} {env : Env Reply} {past events : List (Event Reply)}

theorem IsAddress.add_header_ne_null (haddress : IsAddress reply) : reply + header ≠ null := by
  intro hnull
  have hzero : (reply + header).toNat = 0 := congrArg BitVec.toNat hnull
  rw [toNat_add_header] at hzero
  unfold IsAddress at haddress
  omega

theorem run_finishAllocation_mapFailed :
    (finishAllocation size mapFailed).run env past = ⟨[], .returned null⟩ := rfl

theorem store_mem_finishAllocation (hreply : reply ≠ mapFailed) :
    Call.store reply (size + header) ∈ ((finishAllocation size reply).run env past).calls := by
  rw [finishAllocation, if_neg hreply]
  apply mem_calls_perform

theorem run_finishAllocation (haddress : IsAddress reply) (hanswers : Answers env reply) :
    (finishAllocation size reply).run env past =
      ⟨[⟨.store reply (size + header), ()⟩], .returned (reply + header)⟩ := by
  have hreply : reply ≠ mapFailed := by
    rintro rfl
    exact haddress.not_isError isError_mapFailed
  rw [finishAllocation, if_neg hreply]
  exact Returns.perform (hanswers.store haddress _ _) (.pure _ _ _)

/-- The block behind the header lies in a mapping whose length has not wrapped. -/
theorem within_mapping {length : Nat} (hlength : size.toNat + 8 ≤ length) {x : Word}
    (hx : Within (reply + header) size.toNat x) : Within reply length x := by
  have hin : 8 + size.toNat ≤ length := by omega
  exact hx.of_add hin

theorem meets_of_mapFailed (hharmless : ∀ event ∈ events, event.1.Harmless) :
    Meets size mapFailed ⟨events, .returned null⟩ where
  null_iff := iff_of_true rfl isError_mapFailed
  untouched _ c hc := by
    rw [Execution.calls, List.append_nil] at hc
    obtain ⟨event, hevent, rfl⟩ := List.mem_map.mp hc
    exact hharmless event hevent
  enough q hq hne := by
    cases hq
    exact absurd rfl hne

theorem meets_address_iff (haddress : IsAddress reply)
    (hasked : ∀ length, (∃ event ∈ events, event.1.asked = some length) ↔ length = size + header)
    (value : Unit) :
    Meets size reply
        ⟨events ++ [⟨.store reply (size + header), value⟩], .returned (reply + header)⟩ ↔
      size.toNat + 8 < 2 ^ 64 := by
  have hnull := haddress.add_header_ne_null
  have hbound := size.isLt
  constructor
  · intro hmeets
    obtain ⟨c, hc, length, hlength, hle, -⟩ := hmeets.enough _ rfl hnull
    have hwrapped : length = size + header := by
      rw [Execution.calls, List.append_nil, List.map_append, List.mem_append] at hc
      rcases hc with hc | hc
      · obtain ⟨event, hevent, rfl⟩ := List.mem_map.mp hc
        exact (hasked length).mp ⟨event, hevent, hlength⟩
      · cases List.mem_singleton.mp hc
        cases hlength
    rw [hwrapped, toNat_add_header] at hle
    omega
  · intro hsize
    have hlength : size.toNat + 8 ≤ (size + header).toNat := by
      rw [toNat_add_header_of_lt hsize]
    obtain ⟨event, hevent, hlen⟩ := (hasked (size + header)).mpr rfl
    refine ⟨iff_of_false ?_ haddress.not_isError, fun herror => ?_, fun q hq _ => ?_⟩
    · intro hreturned
      exact hnull (Outcome.returned.inj hreturned)
    · exact absurd herror haddress.not_isError
    · cases hq
      refine ⟨event.1, ?_, size + header, hlen, hlength, fun x => within_mapping hlength⟩
      rw [Execution.calls, List.append_nil]
      exact List.mem_map_of_mem (List.mem_append_left _ hevent)

/-- What is right and wrong with an allocation is decided behind the call that allocates. -/
theorem meets_bind_iff {p : Prog Reply Word} (hreply : IsError reply ∨ IsAddress reply)
    (hanswers : Answers env reply) (hreturns : Returns env [] p events reply)
    (hharmless : ∀ event ∈ events, event.1.Harmless)
    (hasked : ∀ length,
      (∃ event ∈ events, event.1.asked = some length) ↔ length = size + header) :
    Meets size reply ((p >>= finishAllocation size).run env []) ↔
      reply = mapFailed ∨ IsAddress reply ∧ size.toNat + 8 < 2 ^ 64 := by
  by_cases hfailed : reply = mapFailed
  · subst hfailed
    rw [hreturns.run_bind, run_finishAllocation_mapFailed, List.append_nil]
    exact iff_of_true (meets_of_mapFailed hharmless) (.inl rfl)
  · rcases hreply with herror | haddress
    · -- Every error number but one is taken for an address.
      apply iff_of_false
      · intro hmeets
        refine hmeets.untouched herror (.store reply (size + header)) ?_
        rw [hreturns.calls_bind]
        exact List.mem_append_right _ (store_mem_finishAllocation hfailed)
      · rintro (hmap | ⟨haddress, -⟩)
        · exact hfailed hmap
        · exact haddress.not_isError herror
    · rw [hreturns.run_bind, run_finishAllocation haddress hanswers,
        meets_address_iff haddress hasked]
      simp only [hfailed, haddress, true_and, false_or]

end Allocation

/-- `malloc` and `realloc` do what they are to do exactly if the reply is the one error that is
`MAP_FAILED`, or an address for a length that has not wrapped. -/
theorem allocation_meets_iff (size reply : Word) (hreply : IsError reply ∨ IsAddress reply)
    (env : Env Reply) (hanswers : Answers env reply) :
    (Meets size reply ((malloc size).run env []) ↔
      reply = mapFailed ∨ IsAddress reply ∧ size.toNat + 8 < 2 ^ 64) ∧
    ∀ p, p ≠ null → size ≠ 0 →
      (Meets size reply ((realloc p size).run env []) ↔
        reply = mapFailed ∨ IsAddress reply ∧ size.toNat + 8 < 2 ^ 64) := by
  constructor
  · rw [malloc_eq]
    apply meets_bind_iff hreply hanswers (.call (hanswers.mmap ..))
    · simp [Call.Harmless]
    · simp [Call.asked, eq_comm]
  · intro p hp hsize
    obtain ⟨oldSize, hload⟩ := hanswers.load [] (p - header)
    rw [realloc_eq hp hsize]
    apply meets_bind_iff hreply hanswers (.bind (.call hload) (.call (hanswers.mremap ..)))
    · simp [Call.Harmless]
    · simp [Call.asked, eq_comm]

/-- A kernel that always gives the same reply to a call that allocates. -/
def answering (reply : Word) : Env Reply := fun _ c =>
  match c with
  | .mmap _ _ _ _ _ _ | .mremap _ _ _ _ _ => some reply
  | .munmap _ _ => some 0
  | .load _ => some 24
  | .store _ _ => some ()
  | .exit _ => none

theorem answers_answering (reply : Word) : Answers (answering reply) reply :=
  ⟨fun _ _ _ _ _ _ _ => rfl, fun _ _ _ _ _ _ => rfl, fun _ _ => ⟨24, rfl⟩, fun _ _ _ => rfl⟩

theorem malloc_meets_address :
    Meets 100 0x7000 ((malloc 100).run (answering 0x7000) []) ∧
      Meets 100 0x7000 ((realloc 0x5008 100).run (answering 0x7000) []) :=
  have haddress : IsAddress 0x7000 := rfl
  have hiff := allocation_meets_iff 100 0x7000 (.inr haddress) _ (answers_answering _)
  ⟨hiff.1.mpr (.inr ⟨haddress, by decide⟩),
    (hiff.2 0x5008 (by decide) (by decide)).mpr (.inr ⟨haddress, by decide⟩)⟩

/-- The reply `-ENOMEM` is written through and handed out, and so is a mapping shorter than the
header for a size that wraps. -/
theorem allocation_fails_enomem :
    IsError (-12) ∧
      Returns (answering (-12)) [] (malloc 100)
        [⟨.mmap 0 108 3 0x22 (-1) 0, (-12 : Word)⟩, ⟨.store (-12) 108, ()⟩] (-4) ∧
      ¬Meets 100 (-12) ((malloc 100).run (answering (-12)) []) ∧
      ¬Meets 100 (-12) ((realloc 0x5008 100).run (answering (-12)) []) ∧
      Returns (answering 0x7000) [] (malloc (-7))
        [⟨.mmap 0 1 3 0x22 (-1) 0, (0x7000 : Word)⟩, ⟨.store 0x7000 1, ()⟩] 0x7008 ∧
      ¬Meets (-7) 0x7000 ((malloc (-7)).run (answering 0x7000) []) := by
  have herror : IsError (-12) := ⟨12, by decide, by decide, rfl⟩
  refine ⟨herror, rfl, fun hmeets => ?_, fun hmeets => ?_, rfl, fun hmeets => ?_⟩
  · exact absurd (Outcome.returned.inj (hmeets.null_iff.mpr herror)) (by decide)
  · exact absurd (Outcome.returned.inj (hmeets.null_iff.mpr herror)) (by decide)
  · obtain ⟨c, hc, length, hlength, hle, -⟩ := hmeets.enough 0x7008 rfl (by decide)
    have hbound := length.isLt
    have hsize : (-7 : Word).toNat = 2 ^ 64 - 7 := by decide
    omega

end Acos.Malloc
