import Mathlib.Data.List.Basic

/-!
# Singly linked lists

A list in memory with a pointer to its first and one to its last node. The nodes are allocated one
after the other, and the address of a node is the number of the nodes allocated before it.
-/

namespace LinkedList

variable {α : Type*}

structure Node (α : Type*) where
  item : α
  next : Option Nat

structure Linked (α : Type*) where
  memory : List (Node α)
  head : Option Nat
  last : Option Nat

def Linked.empty : Linked α := ⟨[], none, none⟩

/-- A new node is linked behind the last one, or is the first. -/
def Linked.append (list : Linked α) (x : α) : Linked α :=
  let address := list.memory.length
  let memory := list.memory ++ [⟨x, none⟩]
  match list.last with
  | some last =>
      { list with
        memory := memory.modify last fun node => { node with next := some address }
        last := some address }
  | none => { memory := memory, head := some address, last := some address }

/-- The items from a pointer on, up to the null pointer. -/
inductive Chain (memory : List (Node α)) : Option Nat → List α → Prop where
  | nil : Chain memory none []
  | cons {address : Nat} {x : α} {next : Option Nat} {xs : List α}
      (hnode : memory[address]? = some ⟨x, next⟩) (hnext : Chain memory next xs) :
      Chain memory (some address) (x :: xs)

/-- The items a walk from a pointer meets in so many steps. -/
def walk (memory : List (Node α)) : Nat → Option Nat → List α
  | 0, _ => []
  | _ + 1, none => []
  | fuel + 1, some address =>
      match memory[address]? with
      | some node => node.item :: walk memory fuel node.next
      | none => []

/-- No walk has more steps than there are nodes. -/
def Linked.toList (list : Linked α) : List α := walk list.memory list.memory.length list.head

theorem Chain.walk_eq {memory : List (Node α)} {pointer : Option Nat} {xs : List α}
    (hchain : Chain memory pointer xs) {fuel : Nat} (hfuel : xs.length ≤ fuel) :
    walk memory fuel pointer = xs := by
  induction hchain generalizing fuel with
  | nil =>
      cases fuel with
      | zero => rfl
      | succ fuel => rfl
  | cons hnode hnext ih =>
      obtain ⟨fuel, rfl⟩ := Nat.exists_eq_add_of_le' hfuel
      simp only [List.length_cons, ← Nat.add_assoc, walk, hnode]
      rw [ih (Nat.le_add_left _ _)]

/-! ### The memory of a list -/

/-- The pointer to the first of the items that are stored from an address on. -/
def first (address : Nat) : List α → Option Nat
  | [] => none
  | _ :: _ => some address

/-- The nodes of items that are stored from an address on. -/
def nodes (address : Nat) : List α → List (Node α)
  | [] => []
  | x :: xs => ⟨x, first (address + 1) xs⟩ :: nodes (address + 1) xs

def Linked.ofList (xs : List α) : Linked α where
  memory := nodes 0 xs
  head := first 0 xs
  last := if xs = [] then none else some (xs.length - 1)

theorem length_nodes (address : Nat) (xs : List α) : (nodes address xs).length = xs.length := by
  induction xs generalizing address with
  | nil => rfl
  | cons x xs ih => exact congrArg Nat.succ (ih (address + 1))

theorem nodes_append (address : Nat) (xs : List α) (y x : α) :
    (nodes address (xs ++ [y]) ++ [(⟨x, none⟩ : Node α)]).modify xs.length
        (fun node => { node with next := some (address + xs.length + 1) })
      = nodes address (xs ++ [y] ++ [x]) := by
  induction xs generalizing address with
  | nil => rfl
  | cons z xs ih =>
      have htail := ih (address + 1)
      have hfirst : first (address + 1) (xs ++ [y]) = first (address + 1) (xs ++ [y] ++ [x]) := by
        cases xs with
        | nil => rfl
        | cons w xs => rfl
      rw [Nat.add_right_comm address 1] at htail
      simp only [List.cons_append, nodes, List.length_cons, List.modify_succ_cons, ← Nat.add_assoc]
      rw [htail, hfirst]

/-- Appending to the memory of a list gives the memory of the longer one. -/
theorem append_ofList (xs : List α) (x : α) :
    (Linked.ofList xs).append x = .ofList (xs ++ [x]) := by
  rcases List.eq_nil_or_concat xs with rfl | ⟨xs, y, rfl⟩
  · rfl
  · have hmemory := nodes_append 0 xs y x
    simp only [List.concat_eq_append, Linked.append, Linked.ofList, length_nodes,
      List.append_ne_nil_of_right_ne_nil _ (List.cons_ne_nil _ _), if_false, List.length_append,
      List.length_cons, List.length_nil, Nat.zero_add, Nat.add_sub_cancel] at hmemory ⊢
    rw [hmemory]
    cases xs with
    | nil => rfl
    | cons z xs => rfl

theorem chain_nodes (before : List (Node α)) (xs : List α) :
    Chain (before ++ nodes before.length xs) (first before.length xs) xs := by
  induction xs generalizing before with
  | nil => exact .nil
  | cons x xs ih =>
      have htail := ih (before ++ [⟨x, first (before.length + 1) xs⟩])
      rw [List.append_assoc, List.singleton_append, List.length_append, List.length_singleton]
        at htail
      refine .cons ?_ htail
      rw [nodes, List.getElem?_append_right (Nat.le_refl _), Nat.sub_self, List.getElem?_cons_zero]

/-- The memory of a list holds its items. -/
theorem chain_ofList (xs : List α) :
    Chain (Linked.ofList xs).memory (Linked.ofList xs).head xs :=
  chain_nodes [] xs

theorem toList_ofList (xs : List α) : (Linked.ofList xs).toList = xs :=
  (chain_ofList xs).walk_eq (Nat.le_of_eq (length_nodes 0 xs).symm)

end LinkedList
