import Mathlib.Data.List.Chain
import Mathlib.Data.List.Nodup
import Mathlib.Logic.Function.Iterate
import Mathlib.Logic.Function.Basic

/-!
# Doubly linked rings

The links of a heap of nodes are two maps on addresses. A list of addresses is a ring of these
links when every node is linked both ways to the one after it and the last one to the first. The
edits of a ring are those a circular list is changed by, a new node on either side of the head and
the removal of a node, written as the four and two stores that make them. A walk along the links meets
the nodes in the order of the list.
-/

namespace LinkedRing

variable {α : Type} [DecidableEq α]

structure Links (α : Type) where
  next : α → α
  prev : α → α

namespace Links

variable (links : Links α)

/-- The node `x` comes to stand before `head`, hence last in the ring that starts at `head`. -/
def insertBefore (head x : α) : Links α :=
  let links := { links with next := Function.update links.next (links.prev head) x }
  let links := { links with next := Function.update links.next x head }
  let links := { links with prev := Function.update links.prev x (links.prev head) }
  { links with prev := Function.update links.prev head x }

/-- A node that is its own neighbour on both sides. -/
def single (x : α) : Links α where
  next := Function.update links.next x x
  prev := Function.update links.prev x x

/-- The neighbours of `x` are linked past it. -/
def unlink (x : α) : Links α :=
  let links := { links with next := Function.update links.next (links.prev x) (links.next x) }
  { links with prev := Function.update links.prev (links.next x) (links.prev x) }

/-- The node `x` comes to stand behind `head`, hence first in the ring that starts behind it. -/
def insertAfter (head x : α) : Links α :=
  let links := { links with next := Function.update links.next x (links.next head) }
  let links := { links with prev := Function.update links.prev x head }
  let links := { links with prev := Function.update links.prev (links.next head) x }
  { links with next := Function.update links.next head x }

/-- The neighbours of `x` are linked past it, the backward link first. -/
def detach (x : α) : Links α :=
  let links := { links with prev := Function.update links.prev (links.next x) (links.prev x) }
  { links with next := Function.update links.next (links.prev x) (links.next x) }

/-- The ring in the opposite direction. -/
def flip : Links α := ⟨links.prev, links.next⟩

end Links

/-- The two nodes are linked both ways. -/
def Linked (links : Links α) (x y : α) : Prop := links.next x = y ∧ links.prev y = x

/-- The nodes of the list, in this order, are a ring. -/
def IsRing (links : Links α) : List α → Prop
  | [] => True
  | head :: rest =>
      (head :: rest).Nodup ∧ List.IsChain (Linked links) (head :: (rest ++ [head]))

variable {links : Links α} {head x : α} {rest : List α}

omit [DecidableEq α] in
theorem IsRing.nodup {ring : List α} (hring : IsRing links ring) : ring.Nodup := by
  cases ring with
  | nil => exact List.nodup_nil
  | cons head rest => exact hring.1

omit [DecidableEq α] in
/-- The head's successor starts the rotated ring. -/
theorem IsRing.head?_rotate (hring : IsRing links (head :: rest)) :
    (rest ++ [head]).head? = some (links.next head) := by
  obtain ⟨_, hchain⟩ := hring
  cases rest with
  | nil => simp [(List.isChain_pair.mp hchain).1]
  | cons second rest => simp [(List.isChain_cons_cons.mp hchain).1.1]

omit [DecidableEq α] in
theorem IsRing.rotate (hring : IsRing links (head :: rest)) : IsRing links (rest ++ [head]) := by
  obtain ⟨hnodup, hchain⟩ := hring
  cases rest with
  | nil => exact ⟨hnodup, hchain⟩
  | cons second rest =>
      obtain ⟨hlink, hrest⟩ := List.isChain_cons_cons.mp hchain
      have hperm : (head :: second :: rest).Perm (second :: rest ++ [head]) :=
        (List.perm_append_singleton head (second :: rest)).symm
      refine ⟨hperm.nodup_iff.mp hnodup, ?_⟩
      change List.IsChain (Linked links) (second :: (rest ++ [head] ++ [second]))
      rw [List.append_assoc]
      exact List.isChain_cons_split.mpr ⟨hrest, List.isChain_pair.mpr hlink⟩

omit [DecidableEq α] in
/-- A ring splits at its last node. -/
private theorem IsRing.exists_last (hring : IsRing links (head :: rest)) :
    ∃ front, head :: rest = front ++ [links.prev head] ∧
      List.IsChain (Linked links) (head :: rest) ∧ links.next (links.prev head) = head := by
  obtain ⟨_, hchain⟩ := hring
  obtain ⟨front, last, hsplit⟩ : ∃ front last, head :: rest = front ++ [last] :=
    ⟨_, _, (List.dropLast_append_getLast (List.cons_ne_nil head rest)).symm⟩
  rw [← List.cons_append, hsplit, List.append_assoc] at hchain
  obtain ⟨hfront, hlink⟩ := List.isChain_split.mp hchain
  obtain ⟨hnext, hprev⟩ := List.isChain_pair.mp hlink
  rw [hprev]
  exact ⟨front, hsplit, hsplit ▸ hfront, hnext⟩

omit [DecidableEq α] in
theorem IsRing.getLast?_eq (hring : IsRing links (head :: rest)) :
    (head :: rest).getLast? = some (links.prev head) := by
  obtain ⟨front, hsplit, _⟩ := hring.exists_last
  rw [hsplit, List.getLast?_concat]

omit [DecidableEq α] in
theorem IsRing.next_mem (hring : IsRing links (head :: rest)) :
    links.next head ∈ head :: rest := by
  have hmem := List.mem_of_mem_head? (hring.head?_rotate ▸ Option.mem_some_self _)
  simpa [or_comm] using hmem

omit [DecidableEq α] in
theorem IsRing.prev_mem (hring : IsRing links (head :: rest)) :
    links.prev head ∈ head :: rest :=
  List.mem_of_mem_getLast? (hring.getLast?_eq ▸ Option.mem_some_self _)

theorem isRing_single (links : Links α) (x : α) : IsRing (links.single x) [x] := by
  refine ⟨List.nodup_singleton x, List.isChain_pair.mpr ⟨?_, ?_⟩⟩ <;> simp [Links.single]

/-- A fresh node linked before the head is the last one of the ring. -/
theorem IsRing.insertBefore (hring : IsRing links (head :: rest)) (hfresh : x ∉ head :: rest) :
    IsRing (links.insertBefore head x) (head :: (rest ++ [x])) := by
  obtain ⟨front, hsplit, hchain, hnext⟩ := hring.exists_last
  have hlast : links.prev head ≠ x := fun heq => hfresh (heq ▸ hring.prev_mem)
  have hhead : head ≠ x := fun heq => hfresh (heq ▸ List.mem_cons_self)
  obtain ⟨hnot, _⟩ := List.nodup_cons.mp hring.nodup
  -- the links inside the old ring do not use the pair of links that is replaced
  have hinside : List.IsChain (Linked (links.insertBefore head x)) (head :: rest) := by
    refine hchain.imp_of_mem_tail_imp ?_
    rintro u v hu hv ⟨hnextu, hprevv⟩
    have hvhead : v ≠ head := fun heq => hnot (heq ▸ hv)
    have hulast : u ≠ links.prev head := fun heq => hvhead (by rw [← hnextu, heq, hnext])
    have hux : u ≠ x := fun heq => hfresh (heq ▸ hu)
    have hvx : v ≠ x := fun heq => hfresh (heq ▸ List.mem_cons_of_mem head hv)
    exact ⟨by simp [Links.insertBefore, hux, hulast, hnextu],
      by simp [Links.insertBefore, hvhead, hvx, hprevv]⟩
  refine ⟨?_, ?_⟩
  · rw [← List.cons_append, List.nodup_append]
    exact ⟨hring.nodup, List.nodup_singleton x, fun u hu v hv heq =>
      hfresh (List.mem_singleton.mp hv ▸ heq ▸ hu)⟩
  · rw [← List.cons_append, ← List.cons_append, hsplit, List.append_assoc, List.append_assoc]
    refine List.isChain_append_cons_cons.mpr ⟨hsplit ▸ hinside, ⟨?_, ?_⟩, ?_⟩
    · simp [Links.insertBefore, hlast]
    · simp [Links.insertBefore, hhead.symm]
    · exact List.isChain_pair.mpr ⟨by simp [Links.insertBefore], by simp [Links.insertBefore]⟩

/-- Unlinking the head leaves the rest of the ring, in its order. -/
theorem IsRing.unlink (hring : IsRing links (head :: rest)) (hrest : rest ≠ []) :
    IsRing (links.unlink head) rest := by
  obtain ⟨second, rest, rfl⟩ := List.exists_cons_of_ne_nil hrest
  obtain ⟨front, hsplit, hchain, hnext⟩ := hring.exists_last
  obtain ⟨⟨hsecond, _⟩, hchain⟩ := List.isChain_cons_cons.mp hchain
  obtain ⟨hnot, hnodup⟩ := List.nodup_cons.mp hring.nodup
  have hne : links.prev head ≠ head := by
    intro heq
    rw [heq, hsecond] at hnext
    exact hnot (hnext ▸ List.mem_cons_self)
  have hinside : List.IsChain (Linked (links.unlink head)) (second :: rest) := by
    refine hchain.imp_of_mem_tail_imp ?_
    rintro u v hu hv ⟨hnextu, hprevv⟩
    have hvhead : v ≠ head := fun heq => hnot (heq ▸ List.mem_cons_of_mem second hv)
    have hulast : u ≠ links.prev head := fun heq => hvhead (by rw [← hnextu, heq, hnext])
    have hvsecond : v ≠ second := fun heq => (List.nodup_cons.mp hnodup).1 (heq ▸ hv)
    exact ⟨by simp [Links.unlink, hulast, hnextu],
      by simp [Links.unlink, hne.symm, hsecond, hvsecond, hprevv]⟩
  refine ⟨hnodup, ?_⟩
  obtain ⟨front, rfl⟩ : ∃ front', front = head :: front' := by
    cases front with
    | nil => simp at hsplit
    | cons first front => exact ⟨front, by simp_all⟩
  have hsplit : second :: rest = front ++ [links.prev head] := by simpa using hsplit
  rw [← List.cons_append, hsplit, List.append_assoc]
  refine List.isChain_append_cons_cons.mpr ⟨hsplit ▸ hinside, ⟨?_, ?_⟩, List.isChain_singleton _⟩
  · simp [Links.unlink, hsecond]
  · simp [Links.unlink, hne.symm, hsecond]

omit [DecidableEq α] in
private theorem exists_iterate_of_isChain {walk : List α}
    (hchain : List.IsChain (Linked links) (head :: walk)) :
    ∀ y ∈ head :: walk, ∃ j, links.next^[j] head = y := by
  induction walk generalizing head with
  | nil => exact fun y hy => ⟨0, (List.mem_singleton.mp hy).symm⟩
  | cons second walk ih =>
      obtain ⟨⟨hnext, _⟩, hrest⟩ := List.isChain_cons_cons.mp hchain
      intro y hy
      rcases List.mem_cons.mp hy with rfl | hy
      · exact ⟨0, rfl⟩
      · obtain ⟨j, hj⟩ := ih hrest y hy
        exact ⟨j + 1, by rw [Function.iterate_succ_apply, hnext, hj]⟩

omit [DecidableEq α] in
/-- Every node of a ring is reached from its head. -/
theorem IsRing.exists_iterate (hring : IsRing links (head :: rest)) {y : α}
    (hy : y ∈ head :: rest) : ∃ j, links.next^[j] head = y := by
  obtain ⟨_, _, hchain, _⟩ := hring.exists_last
  exact exists_iterate_of_isChain hchain y hy

omit [DecidableEq α] in
/-- The successor of a node is a node, linked back to it. -/
theorem IsRing.next_linked {ring : List α} (hring : IsRing links ring) {y : α} (hy : y ∈ ring) :
    links.next y ∈ ring ∧ links.prev (links.next y) = y := by
  obtain ⟨front, back, rfl⟩ := List.append_of_mem hy
  obtain ⟨head, rest, hsplit⟩ : ∃ head rest, front ++ y :: back = head :: rest :=
    List.exists_cons_of_ne_nil (by simp)
  rw [hsplit] at hring
  obtain ⟨_, hchain⟩ := hring
  rw [← List.cons_append, ← hsplit, List.append_assoc, List.cons_append] at hchain
  obtain ⟨_, hchain⟩ := List.isChain_split.mp hchain
  cases back with
  | nil =>
      obtain ⟨hnext, hprev⟩ := List.isChain_pair.mp hchain
      rw [hnext, hsplit]
      exact ⟨List.mem_cons_self, hprev⟩
  | cons second back =>
      obtain ⟨⟨hnext, hprev⟩, _⟩ := List.isChain_cons_cons.mp hchain
      rw [hnext]
      exact ⟨by simp, hprev⟩

omit [DecidableEq α] in
/-- The predecessor of a node is a node, linked forth to it. -/
theorem IsRing.prev_linked {ring : List α} (hring : IsRing links ring) {y : α} (hy : y ∈ ring) :
    links.prev y ∈ ring ∧ links.next (links.prev y) = y := by
  obtain ⟨head, rest, rfl⟩ := List.exists_cons_of_ne_nil (List.ne_nil_of_mem hy)
  obtain ⟨front, hsplit, hchain, hnext⟩ := hring.exists_last
  rcases List.mem_cons.mp hy with rfl | hy
  · exact ⟨hring.prev_mem, hnext⟩
  obtain ⟨before, back, rfl⟩ := List.append_of_mem hy
  obtain ⟨start, last, hlast⟩ : ∃ start last, head :: before = start ++ [last] :=
    ⟨_, _, (List.dropLast_append_getLast (List.cons_ne_nil head before)).symm⟩
  rw [← List.cons_append, hlast, List.append_assoc] at hchain
  obtain ⟨_, ⟨hforth, hback⟩, _⟩ := List.isChain_append_cons_cons.mp hchain
  rw [hback, ← List.cons_append, hlast]
  exact ⟨by simp, hforth⟩

omit [DecidableEq α] in
/-- Only the ring of one node has a head that is its own successor. -/
theorem IsRing.next_eq_self_iff (hring : IsRing links (head :: rest)) :
    links.next head = head ↔ rest = [] := by
  obtain ⟨hnodup, hchain⟩ := hring
  cases rest with
  | nil => simpa using (List.isChain_pair.mp hchain).1
  | cons second rest =>
      rw [(List.isChain_cons_cons.mp hchain).1.1]
      refine ⟨fun heq => ?_, nofun⟩
      exact absurd List.mem_cons_self (heq ▸ (List.nodup_cons.mp hnodup).1)

omit [DecidableEq α] in
/-- A ring starts anywhere. -/
theorem IsRing.rotate_append {front back : List α} (hring : IsRing links (front ++ back)) :
    IsRing links (back ++ front) := by
  induction front generalizing back with
  | nil => rwa [List.append_nil]
  | cons first front ih =>
      have hrotated : IsRing links (front ++ (back ++ [first])) := by
        rw [← List.append_assoc]
        exact hring.rotate
      have hmoved := ih hrotated
      rwa [List.append_assoc, List.singleton_append] at hmoved

omit [DecidableEq α] in
theorem IsRing.flip (hring : IsRing links (head :: rest)) :
    IsRing links.flip (head :: rest.reverse) := by
  obtain ⟨hnodup, hchain⟩ := hring
  refine ⟨?_, ?_⟩
  · rw [List.nodup_cons, List.mem_reverse, List.nodup_reverse]
    exact List.nodup_cons.mp hnodup
  · have hreverse : head :: (rest.reverse ++ [head]) = (head :: (rest ++ [head])).reverse := by
      simp
    rw [hreverse, List.isChain_reverse]
    exact hchain.imp fun x y hlinked => ⟨hlinked.2, hlinked.1⟩

/-- A node that is in no ring is linked behind the head. -/
theorem IsRing.insertAfter (hring : IsRing links (head :: rest)) (hfresh : x ∉ head :: rest) :
    IsRing (links.insertAfter head x) (head :: x :: rest) := by
  have hfirst : links.next head ≠ x := fun heq => hfresh (heq ▸ hring.next_mem)
  have hhead : head ≠ x := fun heq => hfresh (heq ▸ List.mem_cons_self)
  -- in the opposite direction the new node is the last one
  have hmirror : (links.flip.insertBefore head x).flip = links.insertAfter head x := by
    simp [Links.insertBefore, Links.insertAfter, Links.flip, hhead,
      Function.update_comm hfirst.symm]
  have hflip := (hring.flip.insertBefore (x := x) (by simpa using hfresh)).flip
  rwa [hmirror, List.reverse_append, List.reverse_reverse] at hflip

/-- A node in the ring comes to stand behind the head. -/
theorem IsRing.moveToFront {front back : List α}
    (hring : IsRing links (head :: (front ++ x :: back))) :
    IsRing ((links.detach x).insertAfter head x) (head :: x :: (front ++ back)) := by
  have hfresh : x ∉ head :: (front ++ back) := by
    have hperm : (head :: (front ++ x :: back)).Perm (x :: head :: (front ++ back)) :=
      (List.perm_middle.cons head).trans (List.Perm.swap x head _)
    exact (List.nodup_cons.mp (hperm.nodup_iff.mp hring.nodup)).1
  rw [← List.cons_append] at hring
  have hfirst := hring.rotate_append
  rw [List.cons_append] at hfirst
  have hdetached := hfirst.flip.unlink (by simp)
  rw [List.reverse_append, List.reverse_cons, List.append_assoc] at hdetached
  have hrest := hdetached.rotate_append
  rw [List.singleton_append, List.cons_append] at hrest
  have hflip := hrest.flip
  rw [List.reverse_append, List.reverse_reverse, List.reverse_reverse] at hflip
  exact hflip.insertAfter hfresh

/-- The walk from a node until the head comes round, over at most so many nodes, for the first one
with the property. -/
def search (next : α → α) (head : α) (p : α → Bool) : Nat → α → Option α
  | 0, _ => none
  | n + 1, x => if x = head then none else if p x then some x else search next head p n (next x)

private theorem search_eq_of_isChain (p : α → Bool) {walk : List α} {n : Nat}
    (hchain : List.IsChain (Linked links) (x :: (walk ++ [head]))) (hhead : head ∉ walk)
    (hn : walk.length < n) :
    search links.next head p n (links.next x) = walk.find? p := by
  induction walk generalizing x n with
  | nil =>
      obtain ⟨n, rfl⟩ := Nat.exists_eq_succ_of_ne_zero (Nat.ne_zero_of_lt hn)
      rw [(List.isChain_pair.mp hchain).1, search, if_pos rfl]
      rfl
  | cons y walk ih =>
      obtain ⟨n, rfl⟩ := Nat.exists_eq_succ_of_ne_zero (Nat.ne_zero_of_lt hn)
      obtain ⟨⟨hnext, -⟩, hchain⟩ := List.isChain_cons_cons.mp hchain
      obtain ⟨hy, hhead⟩ := not_or.mp (mt List.mem_cons.mpr hhead)
      rw [hnext, search, if_neg (Ne.symm hy), List.find?_cons]
      cases p y with
      | true => rfl
      | false => exact ih hchain hhead (Nat.lt_of_succ_lt_succ hn)

/-- A walk along the whole ring meets its nodes in their order. -/
theorem IsRing.search_next (hring : IsRing links (head :: rest)) (p : α → Bool) {n : Nat}
    (hn : rest.length < n) :
    search links.next head p n (links.next head) = rest.find? p :=
  search_eq_of_isChain p hring.2 (List.nodup_cons.mp hring.nodup).1 hn

theorem IsRing.search_prev (hring : IsRing links (head :: rest)) (p : α → Bool) {n : Nat}
    (hn : rest.length < n) :
    search links.prev head p n (links.prev head) = rest.reverse.find? p :=
  hring.flip.search_next p (by simpa using hn)

end LinkedRing
