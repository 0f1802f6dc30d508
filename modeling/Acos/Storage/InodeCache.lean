import Acos.Storage.InodeStore

/-!
# The table of inodes in memory

The kernel keeps the inodes in use in a table with reference counts. Callers name a file by the
entry that `iget` returned. To them the table and the disk together are a store of files with
handles, which is the specification here: every call that returns does what the store does, and the
kernel stops only if it has run out of blocks, of inodes or of entries.
-/

namespace Acos.Storage.Fs

open Outcome Transition

abbrev NINODE : Nat := 50

/-- `struct inode`: the reference count, and the copy of the inode on the disk if it is valid. -/
structure Entry where
  inum : Nat
  ref : Nat
  valid : Bool
  inode : Inode

structure Kernel where
  disk : Disk
  icache : Fin NINODE → Entry

abbrev KernelOp := EStateM Panic Kernel

def Kernel.setEntry (k : Kernel) (c : Fin NINODE) (e : Entry) : Kernel :=
  { k with icache := Function.update k.icache c e }

def onDisk {α : Type} (op : Op α) : KernelOp α := fun k =>
  match op k.disk with
  | .ok a d => .ok a { k with disk := d }
  | .error e d => .error e { k with disk := d }

/-- An entry of the inode is looked for in the whole table before an empty one is taken. -/
def iget (inum : Nat) : KernelOp (Fin NINODE) := do
  let k ← get
  match (List.finRange NINODE).find? fun c => 0 < (k.icache c).ref ∧ (k.icache c).inum = inum with
  | some c =>
      modify fun k => k.setEntry c { k.icache c with ref := (k.icache c).ref + 1 }
      return c
  | none =>
      match (List.finRange NINODE).find? fun c => (k.icache c).ref = 0 with
      | none => throw .iget
      | some c =>
          modify fun k => k.setEntry c { k.icache c with inum := inum, ref := 1, valid := false }
          return c

def idup (c : Fin NINODE) : KernelOp Unit :=
  modify fun k => k.setEntry c { k.icache c with ref := (k.icache c).ref + 1 }

def ilock (c : Fin NINODE) : KernelOp Unit := do
  let k ← get
  if (k.icache c).ref = 0 then
    throw .ilock
  else if (k.icache c).valid then
    return ()
  else
    let ip ← onDisk (iload (k.icache c).inum)
    modify fun k => k.setEntry c { k.icache c with valid := true, inode := ip }

def iput (c : Fin NINODE) : KernelOp Unit := do
  let k ← get
  if (k.icache c).valid ∧ (k.icache c).inode.nlink = 0 ∧ (k.icache c).ref = 1 then
    let ip ← onDisk (ifree (k.icache c).inum (k.icache c).inode)
    modify fun k => k.setEntry c { k.icache c with valid := false, inode := ip }
  modify fun k => k.setEntry c { k.icache c with ref := (k.icache c).ref - 1 }

/-- Between `ilock` and `iunlock`, a function works on the copy of the inode. -/
def withInode {α : Type} (c : Fin NINODE) (op : Nat → Inode → Op (α × Inode)) : KernelOp α := do
  ilock c
  let k ← get
  let (a, ip) ← onDisk (op (k.icache c).inum (k.icache c).inode)
  modify fun k => k.setEntry c { k.icache c with inode := ip }
  return a

/-! ### Calls from the layers above -/

/-- `iupdate` stands for the assignments of `create`, `sys_link` and `sys_unlink` before it. -/
inductive Request where
  | ialloc (type : BitVec 16)
  | iget (inum : Nat)
  | idup (c : Fin NINODE)
  | iput (c : Fin NINODE)
  | stati (c : Fin NINODE)
  | readi (c : Fin NINODE) (off n : Word)
  | writei (c : Fin NINODE) (off : Word) (src : List Byte)
  | iupdate (c : Fin NINODE) (major minor nlink : BitVec 16)
  deriving DecidableEq

inductive Reply where
  | done
  | entry (c : Fin NINODE)
  | stat (ino : Nat) (type nlink : BitVec 16) (size : Word)
  | bytes (bytes : Option (List Byte))
  | count (n : Option Word)
  deriving DecidableEq

def call : Request → KernelOp Reply
  | .ialloc type => do
      let inum ← onDisk (ialloc type)
      return .entry (← iget inum)
  | .iget inum => return .entry (← iget inum)
  | .idup c => do
      idup c
      return .done
  | .iput c => do
      iput c
      return .done
  | .stati c => withInode c fun inum ip => return (.stat inum ip.type ip.nlink ip.size, ip)
  | .readi c off n => do
      return .bytes (← withInode c fun _ ip => readi ip off n)
  | .writei c off src => do
      return .count (← withInode c fun inum ip => writei inum ip off src)
  | .iupdate c major minor nlink => withInode c fun inum ip => do
      let ip := { ip with major := major, minor := minor, nlink := nlink }
      iupdate inum ip
      return (.done, ip)

abbrev TDEV : BitVec 16 := 3

def Kernel.holds (k : Kernel) (c : Fin NINODE) : Bool := 0 < (k.icache c).ref

/-- Another reference to the entry can be counted by an `int`. -/
def Kernel.countable (k : Kernel) (c : Fin NINODE) : Bool := (k.icache c).ref + 1 < 2 ^ 31

def Kernel.regular (k : Kernel) (c : Fin NINODE) : Bool :=
  (k.disk.table (k.icache c).inum).type ≠ TDEV

/-- What the callers see to: an entry is used by someone who has a reference to it, `iget` is called
for an inode that a directory names, there are not too many references to a file, and the contents of
devices are not in files. -/
def Request.allowed (k : Kernel) : Request → Bool
  | .ialloc type => type ≠ 0
  | .iget inum => (k.disk.file inum).isSome &&
      (List.finRange NINODE).all fun c => (k.icache c).inum ≠ inum || k.countable c
  | .idup c => k.holds c && k.countable c
  | .iput c => k.holds c
  | .stati c => k.holds c
  | .readi c _ _ => k.holds c && k.regular c
  | .writei c _ src => k.holds c && k.regular c && decide (src.length < 2 ^ 32)
  | .iupdate c _ _ _ => k.holds c

def kernelStep (r : Request) (k : Kernel) : Option Kernel :=
  if r.allowed k then
    match call r k with
    | .ok _ k' => some k'
    | .error _ _ => none
  else none

/-- The kernel after `iinit`, on a consistent disk. -/
def Kernel.Fresh (k : Kernel) : Prop := k.disk.Consistent ∧ ∀ c, (k.icache c).ref = 0

def kernelSystem : System Kernel Request := .ofFunction Kernel.Fresh kernelStep

/-! ### The specification -/

/-- A handle to a file. `seen` tells whether the file has been looked at through it. -/
structure Handle where
  inum : Nat
  ref : Nat
  seen : Bool
  deriving DecidableEq

structure Store where
  file : Nat → Option File
  handle : Fin NINODE → Option Handle

namespace Store

def setFile (s : Store) (i : Nat) (f : Option File) : Store :=
  { s with file := Function.update s.file i f }

def setHandle (s : Store) (c : Fin NINODE) (h : Option Handle) : Store :=
  { s with handle := Function.update s.handle c h }

def see (s : Store) (c : Fin NINODE) : Store :=
  s.setHandle c ((s.handle c).map fun h => { h with seen := true })

/-- A file has one handle, whoever opens it. -/
inductive Opens (s : Store) (i : Nat) : Fin NINODE → Store → Prop where
  | again {c : Fin NINODE} {h : Handle} (hc : s.handle c = some h) (hi : h.inum = i) :
      Opens s i c (s.setHandle c (some { h with ref := h.ref + 1 }))
  | first {c : Fin NINODE} (hc : s.handle c = none)
      (hnone : ∀ c h, s.handle c = some h → h.inum ≠ i) :
      Opens s i c (s.setHandle c (some ⟨i, 1, false⟩))

/-- The last reference to a file without links is given up. A handle through which the file was
never looked at leaves it where it is. -/
def Frees (h : Handle) (f : File) : Prop := h.seen = true ∧ f.nlink = 0 ∧ h.ref = 1

instance (h : Handle) (f : File) : Decidable (Frees h f) := inferInstanceAs (Decidable (_ ∧ _))

inductive Step (s : Store) : Request → Reply → Store → Prop where
  | ialloc {type : BitVec 16} {i : Nat} {c : Fin NINODE} {s' : Store} (hi : 1 ≤ i)
      (hnew : s.file i = none) (hopen : (s.setFile i (some ⟨type, 0, 0, 0, []⟩)).Opens i c s') :
      Step s (.ialloc type) (.entry c) s'
  | iget {i : Nat} {c : Fin NINODE} {s' : Store} (hopen : s.Opens i c s') :
      Step s (.iget i) (.entry c) s'
  | idup {c : Fin NINODE} {h : Handle} (hc : s.handle c = some h) :
      Step s (.idup c) .done (s.setHandle c (some { h with ref := h.ref + 1 }))
  | iput {c : Fin NINODE} {h : Handle} {f : File} (hc : s.handle c = some h)
      (hf : s.file h.inum = some f) :
      Step s (.iput c) .done ((if Frees h f then s.setFile h.inum none else s).setHandle c
        (if h.ref = 1 then none else some { h with ref := h.ref - 1 }))
  | stati {c : Fin NINODE} {h : Handle} {f : File} (hc : s.handle c = some h)
      (hf : s.file h.inum = some f) :
      Step s (.stati c) (.stat h.inum f.type f.nlink (BitVec.ofNat 32 f.data.length)) (s.see c)
  | readi {c : Fin NINODE} {h : Handle} {f : File} {off n : Word} (hc : s.handle c = some h)
      (hf : s.file h.inum = some f) :
      Step s (.readi c off n) (.bytes (f.read off.toNat n.toNat)) (s.see c)
  | writei {c : Fin NINODE} {h : Handle} {f : File} {off : Word} {src : List Byte}
      (hc : s.handle c = some h) (hf : s.file h.inum = some f) :
      Step s (.writei c off src)
        (.count ((f.write off.toNat src).map fun _ => BitVec.ofNat 32 src.length))
        ((s.see c).setFile h.inum (some ((f.write off.toNat src).getD f)))
  | iupdate {c : Fin NINODE} {h : Handle} {f : File} {major minor nlink : BitVec 16}
      (hc : s.handle c = some h) (hf : s.file h.inum = some f) :
      Step s (.iupdate c major minor nlink) .done
        ((s.see c).setFile h.inum
          (some { f with major := major, minor := minor, nlink := nlink }))

end Store

def Entry.handle (e : Entry) : Option Handle :=
  if e.ref = 0 then none else some ⟨e.inum, e.ref, e.valid⟩

/-- The store that the kernel stands for. -/
def Kernel.store (k : Kernel) : Store where
  file := k.disk.file
  handle c := (k.icache c).handle

/-- The copies of inodes in memory agree with the disk, and no file in use is free or has two
entries. -/
structure Kernel.Inv (k : Kernel) : Prop where
  consistent : k.disk.Consistent
  cached : ∀ c, 0 < (k.icache c).ref → (k.icache c).valid = true →
    (k.icache c).inode = k.disk.table (k.icache c).inum
  alive : ∀ c, 0 < (k.icache c).ref → k.disk.file (k.icache c).inum ≠ none
  single : ∀ c b, 0 < (k.icache c).ref → 0 < (k.icache b).ref →
    (k.icache c).inum = (k.icache b).inum → c = b

/-- The ways in which the kernel stops. -/
def Kernel.Exhausted (e : Panic) (k : Kernel) : Prop :=
  e = .outOfBlocks ∧ k.disk.Full ∨ e = .ialloc ∧ k.disk.NoInode ∨
    e = .iget ∧ ∀ c, 0 < (k.icache c).ref

/-! ### The calls follow the specification -/

section Calls

variable {k : Kernel} {c : Fin NINODE}

@[simp]
theorem setEntry_self (k : Kernel) (c : Fin NINODE) (e : Entry) :
    (k.setEntry c e).icache c = e := by
  simp only [Kernel.setEntry, Function.update_self]

theorem setEntry_of_ne (k : Kernel) {c b : Fin NINODE} (e : Entry) (hne : b ≠ c) :
    (k.setEntry c e).icache b = k.icache b := by
  simp only [Kernel.setEntry, Function.update_of_ne hne]

@[simp]
theorem setEntry_idem (k : Kernel) (c : Fin NINODE) (e e' : Entry) :
    (k.setEntry c e).setEntry c e' = k.setEntry c e' := by
  simp only [Kernel.setEntry, Function.update_idem]

theorem store_setEntry (k : Kernel) (c : Fin NINODE) (e : Entry) :
    (k.setEntry c e).store = k.store.setHandle c e.handle := by
  simp only [Kernel.store, Store.setHandle, Store.mk.injEq]
  refine ⟨rfl, ?_⟩
  funext b
  by_cases hb : b = c
  · subst hb
    rw [setEntry_self, Function.update_self]
  · rw [setEntry_of_ne k e hb, Function.update_of_ne hb]

theorem handle_of_pos (hc : 0 < (k.icache c).ref) : k.store.handle c
    = some ⟨(k.icache c).inum, (k.icache c).ref, (k.icache c).valid⟩ :=
  if_neg (Nat.pos_iff_ne_zero.mp hc)

theorem pos_of_handle {h : Handle} (hc : k.store.handle c = some h) : 0 < (k.icache c).ref ∧
    h = ⟨(k.icache c).inum, (k.icache c).ref, (k.icache c).valid⟩ := by
  by_cases hzero : (k.icache c).ref = 0
  · rw [show k.store.handle c = none from if_pos hzero] at hc
    cases hc
  · have hpos := Nat.pos_of_ne_zero hzero
    rw [handle_of_pos hpos] at hc
    exact ⟨hpos, (Option.some.inj hc).symm⟩

theorem post_onDisk {α : Type} {op : Op α} {Q : α → Kernel → Prop} {E : Panic → Kernel → Prop} :
    Post (onDisk op k) Q E ↔ Post (op k.disk) (fun a d => Q a { k with disk := d })
      (fun e d => E e { k with disk := d }) := by
  unfold onDisk
  cases op k.disk <;> rfl

/-- The kernel after `ilock`. -/
def Kernel.locked (k : Kernel) (c : Fin NINODE) : Kernel :=
  k.setEntry c
    { k.icache c with valid := true, inode := k.disk.table (k.icache c).inum }

theorem Kernel.Inv.ilock (h : k.Inv) (hc : 0 < (k.icache c).ref) :
    Fs.ilock c k = .ok () (k.locked c) := by
  have hget : (get : KernelOp Kernel) k = .ok k k := rfl
  rw [Fs.ilock, bind_of_ok hget, if_neg (Nat.pos_iff_ne_zero.mp hc)]
  by_cases hvalid : (k.icache c).valid = true
  · have hself : k.locked c = k := by
      rw [Kernel.locked, ← h.cached c hc hvalid, ← hvalid]
      show { k with icache := Function.update k.icache c (k.icache c) } = k
      rw [Function.update_eq_self]
    rw [if_pos hvalid, hself]
    rfl
  · obtain ⟨f, hf⟩ := Option.ne_none_iff_exists'.mp (h.alive c hc)
    have htype := Disk.type_ne_of_file hf
    have hi := Disk.lt_of_type htype
    have hload : onDisk (iload (k.icache c).inum) k
        = .ok (k.disk.table (k.icache c).inum) k := by
      have htype' : (k.disk.dinode (k.icache c).inum).type ≠ 0 := by
        rwa [← Disk.table_of_lt hi]
      have hrun : iload (k.icache c).inum k.disk
          = .ok (k.disk.table (k.icache c).inum) k.disk := by
        rw [iload, bind_of_ok (show (get : Op Disk) k.disk = .ok k.disk k.disk from rfl),
          if_neg htype', Disk.table_of_lt hi]
        rfl
      unfold onDisk
      rw [hrun]
    rw [if_neg hvalid, bind_of_ok hload]
    rfl

/-- One entry and its file change, and no other file in use. -/
theorem Kernel.Inv.change (h : k.Inv) {d : Disk} {e : Entry} (hd : d.Consistent)
    (hother : ∀ b, b ≠ c → 0 < (k.icache b).ref →
      d.table (k.icache b).inum = k.disk.table (k.icache b).inum ∧
        d.file (k.icache b).inum = k.disk.file (k.icache b).inum ∧
        (0 < e.ref → (k.icache b).inum ≠ e.inum))
    (hcached : 0 < e.ref → e.valid = true → e.inode = d.table e.inum)
    (halive : 0 < e.ref → d.file e.inum ≠ none) :
    (({ k with disk := d } : Kernel).setEntry c e).Inv := by
  refine ⟨hd, ?_, ?_, ?_⟩
  · intro b hb hvalid
    by_cases hbc : b = c
    · subst hbc
      rw [setEntry_self] at hb hvalid ⊢
      exact hcached hb hvalid
    · rw [setEntry_of_ne _ _ hbc] at hb hvalid ⊢
      exact (h.cached b hb hvalid).trans (hother b hbc hb).1.symm
  · intro b hb
    by_cases hbc : b = c
    · subst hbc
      rw [setEntry_self] at hb ⊢
      exact halive hb
    · rw [setEntry_of_ne _ _ hbc] at hb ⊢
      exact (hother b hbc hb).2.1.trans_ne (h.alive b hb)
  · intro a b ha hb heq
    by_cases hac : a = c
    · by_cases hbc : b = c
      · exact hac.trans hbc.symm
      · rw [hac, setEntry_self] at ha heq
        rw [setEntry_of_ne _ _ hbc] at hb heq
        exact absurd heq.symm ((hother b hbc hb).2.2 ha)
    · rw [setEntry_of_ne _ _ hac] at ha heq
      by_cases hbc : b = c
      · rw [hbc, setEntry_self] at hb heq
        exact absurd heq ((hother a hac ha).2.2 hb)
      · rw [setEntry_of_ne _ _ hbc] at hb heq
        exact h.single a b ha hb heq

theorem Kernel.Inv.other (h : k.Inv) (hc : 0 < (k.icache c).ref) {ip : Inode} {f : Option File}
    {d : Disk} (hs : Stored k.disk (k.icache c).inum ip f d) (b : Fin NINODE) (hbc : b ≠ c)
    (hb : 0 < (k.icache b).ref) :
    d.table (k.icache b).inum = k.disk.table (k.icache b).inum ∧
      d.file (k.icache b).inum = k.disk.file (k.icache b).inum ∧
      (k.icache b).inum ≠ (k.icache c).inum := by
  have hne : (k.icache b).inum ≠ (k.icache c).inum := fun heq => hbc (h.single b c hb hc heq)
  rw [hs.table, hs.file, Function.update_of_ne hne, Function.update_of_ne hne]
  exact ⟨rfl, rfl, hne⟩

/-- The file of an entry in use is changed, and the copy of its inode with it. -/
theorem Kernel.Inv.stored (h : k.Inv) (hc : 0 < (k.icache c).ref) {ip : Inode} {f : File}
    {d : Disk} (hs : Stored k.disk (k.icache c).inum ip (some f) d) :
    Kernel.Inv (({ k with disk := d } : Kernel).setEntry c
        { k.icache c with valid := true, inode := ip }) ∧
      (({ k with disk := d } : Kernel).setEntry c
        { k.icache c with valid := true, inode := ip }).store
        = (k.store.see c).setFile (k.icache c).inum (some f) := by
  constructor
  · refine h.change hs.consistent (fun b hbc hb => ?_) (fun _ _ => ?_) fun _ => ?_
    · obtain ⟨htable, hfile, hne⟩ := h.other hc hs b hbc hb
      exact ⟨htable, hfile, fun _ => hne⟩
    · rw [hs.table, Function.update_self]
    · rw [hs.file, Function.update_self]
      exact Option.some_ne_none f
  · have hhandle : ({ k.icache c with valid := true, inode := ip } : Entry).handle
        = (k.store.handle c).map fun h => { h with seen := true } := by
      rw [handle_of_pos hc]
      exact if_neg (Nat.pos_iff_ne_zero.mp hc)
    rw [store_setEntry, hhandle]
    simp only [Kernel.store, Store.setHandle, Store.setFile, Store.see, hs.file]

theorem withInode_post (h : k.Inv) (hc : 0 < (k.icache c).ref) {α : Type}
    {op : Nat → Inode → Op (α × Inode)} {Q : α → File → Prop} {E : Panic → Disk → Prop}
    (hop : Post (op (k.icache c).inum (k.disk.table (k.icache c).inum) k.disk)
      (fun r d => ∃ f, Q r.1 f ∧ Stored k.disk (k.icache c).inum r.2 (some f) d) E) :
    Post (withInode c op k)
      (fun a k' => k'.Inv ∧ ∃ f, Q a f ∧
        k'.store = (k.store.see c).setFile (k.icache c).inum (some f))
      (fun e k' => E e k'.disk) := by
  have hlock := h.ilock hc
  have hlocked : (k.locked c).icache c
      = { k.icache c with valid := true, inode := k.disk.table (k.icache c).inum } :=
    setEntry_self _ _ _
  rw [withInode, bind_of_ok hlock]
  simp only [post_bind, post_get, post_onDisk, hlocked, post_modify, post_pure]
  refine hop.mono ?_ fun _ _ he => he
  rintro ⟨a, ip⟩ d ⟨f, hq, hs⟩
  have hresult := h.stored hc hs
  have hentry : ({ disk := d, icache := (k.locked c).icache } : Kernel).setEntry c
        { k.icache c with valid := true, inode := ip }
      = ({ k with disk := d } : Kernel).setEntry c
        { k.icache c with valid := true, inode := ip } := by
    simp only [Kernel.locked, Kernel.setEntry, Function.update_idem]
  dsimp only at hentry ⊢
  rw [hentry]
  exact ⟨hresult.1, f, hq, hresult.2⟩

/-- A function that leaves the inode and the disk as they are. -/
theorem withInode_same_post (h : k.Inv) (hc : 0 < (k.icache c).ref) {α : Type}
    {op : Nat → Inode → Op (α × Inode)} {a : α}
    (hop : op (k.icache c).inum (k.disk.table (k.icache c).inum) k.disk
      = .ok (a, k.disk.table (k.icache c).inum) k.disk) :
    Post (withInode c op k) (fun b k' => k'.Inv ∧ b = a ∧ k'.store = k.store.see c)
      (fun _ _ => False) := by
  obtain ⟨f, hf⟩ := Option.ne_none_iff_exists'.mp (h.alive c hc)
  have hsame : Function.update k.disk.file (k.icache c).inum (some f) = k.disk.file := by
    rw [← hf, Function.update_eq_self]
  refine (withInode_post h hc (Q := fun b g => b = a ∧ g = f) (E := fun _ _ => False) ?_).imp ?_
  · rw [hop]
    exact ⟨f, ⟨rfl, rfl⟩, hf ▸ Stored.refl h.consistent⟩
  · rintro b k' ⟨hinv, g, ⟨rfl, rfl⟩, hstore⟩
    refine ⟨hinv, rfl, hstore.trans ?_⟩
    simp only [Store.see, Store.setHandle, Store.setFile, Kernel.store, hsame]

/-- The reference count of an entry in use changes. -/
theorem Kernel.Inv.setRef (h : k.Inv) (hc : 0 < (k.icache c).ref) (n : Nat) :
    (k.setEntry c { k.icache c with ref := n }).Inv := by
  refine h.change h.consistent (fun b hbc hb => ⟨rfl, rfl, fun _ heq => ?_⟩)
    (fun _ hvalid => h.cached c hc hvalid) fun _ => h.alive c hc
  exact hbc (h.single b c hb hc heq)

theorem iget_post (h : k.Inv) {inum : Nat} (hfile : k.disk.file inum ≠ none) :
    Post (iget inum k) (fun c k' => k'.Inv ∧ k.store.Opens inum c k'.store)
      Kernel.Exhausted := by
  rw [iget, post_bind, post_get]
  cases hfind : (List.finRange NINODE).find?
      fun c => 0 < (k.icache c).ref ∧ (k.icache c).inum = inum with
  | some c =>
      have hfound := List.find?_some hfind
      obtain ⟨hpos, hinum⟩ : 0 < (k.icache c).ref ∧ (k.icache c).inum = inum := by
        simpa using hfound
      refine ⟨h.setRef hpos _, ?_⟩
      rw [store_setEntry]
      exact .again (handle_of_pos hpos) hinum
  | none =>
      have hother : ∀ c, 0 < (k.icache c).ref → (k.icache c).inum ≠ inum := by
        intro c hpos heq
        have hc := List.find?_eq_none.mp hfind c (List.mem_finRange c)
        exact hc (by simpa using ⟨hpos, heq⟩)
      cases hempty : (List.finRange NINODE).find? fun c => (k.icache c).ref = 0 with
      | none =>
          refine .inr (.inr ⟨rfl, fun c => ?_⟩)
          have hc := List.find?_eq_none.mp hempty c (List.mem_finRange c)
          exact Nat.pos_of_ne_zero (by simpa using hc)
      | some c =>
          have hfound := List.find?_some hempty
          have hzero : (k.icache c).ref = 0 := by simpa using hfound
          refine ⟨h.change h.consistent (fun b _ hb => ⟨rfl, rfl, fun _ => hother b hb⟩)
            (fun _ hvalid => nomatch hvalid) fun _ => hfile, ?_⟩
          rw [store_setEntry]
          refine .first (if_pos hzero) fun b g hb => ?_
          obtain ⟨hpos, rfl⟩ := pos_of_handle hb
          exact hother b hpos

/-- A new file has no handle yet. -/
theorem ialloc_call_post (h : k.Inv) {type : BitVec 16} (htype : type ≠ 0) :
    Post (call (.ialloc type) k) (fun r k' => k'.Inv ∧ k.store.Step (.ialloc type) r k'.store)
      Kernel.Exhausted := by
  simp only [call, post_bind, post_onDisk]
  refine (ialloc_post h.consistent htype).mono ?_ ?_
  · rintro inum d ⟨hone, hnone, hs⟩
    have hother : ∀ b, 0 < (k.icache b).ref → (k.icache b).inum ≠ inum := by
      rintro b hb rfl
      exact h.alive b hb hnone
    have hinv : Kernel.Inv { k with disk := d } := by
      refine ⟨hs.consistent, ?_, ?_, h.single⟩
      · intro b hb hvalid
        show (k.icache b).inode = d.table (k.icache b).inum
        rw [hs.table, Function.update_of_ne (hother b hb)]
        exact h.cached b hb hvalid
      · intro b hb
        show d.file (k.icache b).inum ≠ none
        rw [hs.file, Function.update_of_ne (hother b hb)]
        exact h.alive b hb
    have hfile : d.file inum ≠ none := by
      rw [hs.file, Function.update_self]
      exact Option.some_ne_none _
    refine (iget_post hinv hfile).imp ?_
    rintro c k' ⟨hinv', hopen⟩
    refine ⟨hinv', .ialloc hone hnone ?_⟩
    have hstore : Kernel.store { k with disk := d }
        = k.store.setFile inum (some ⟨type, 0, 0, 0, []⟩) := by
      simp only [Kernel.store, Store.setFile, hs.file]
    rwa [hstore] at hopen
  · rintro e d ⟨rfl, rfl, hnone⟩
    exact .inr (.inl ⟨rfl, hnone⟩)

/-- The last reference to a file without links: the file goes first, then the reference. -/
theorem Kernel.Inv.freed (h : k.Inv) (hc : 0 < (k.icache c).ref) {ip : Inode} {d : Disk}
    (hs : Stored k.disk (k.icache c).inum ip none d) (ip' : Inode) :
    Kernel.Inv (({ k with disk := d } : Kernel).setEntry c
        { k.icache c with valid := false, ref := 0, inode := ip' }) ∧
      (({ k with disk := d } : Kernel).setEntry c
        { k.icache c with valid := false, ref := 0, inode := ip' }).store
        = (k.store.setFile (k.icache c).inum none).setHandle c none := by
  constructor
  · refine h.change hs.consistent (fun b hbc hb => ?_) (fun hzero => absurd hzero ?_)
      fun hzero => absurd hzero ?_
    · obtain ⟨htable, hfile, -⟩ := h.other hc hs b hbc hb
      exact ⟨htable, hfile, fun hzero => absurd hzero (Nat.lt_irrefl 0)⟩
    · exact Nat.lt_irrefl 0
    · exact Nat.lt_irrefl 0
  · rw [store_setEntry]
    simp only [Kernel.store, Store.setHandle, Store.setFile, hs.file]
    rfl

theorem iput_post (h : k.Inv) (hc : 0 < (k.icache c).ref) :
    Post (call (.iput c) k) (fun r k' => k'.Inv ∧ k.store.Step (.iput c) r k'.store)
      Kernel.Exhausted := by
  obtain ⟨f, hf⟩ := Option.ne_none_iff_exists'.mp (h.alive c hc)
  have hhandle := handle_of_pos hc
  have hstep := Store.Step.iput (s := k.store) hhandle hf
  have hnlink : f.nlink = (k.disk.table (k.icache c).inum).nlink := by rw [eq_of_file hf]
  rw [call, iput, post_bind, post_bind, post_get]
  by_cases hfrees : (k.icache c).valid ∧ (k.icache c).inode.nlink = 0 ∧ (k.icache c).ref = 1
  · obtain ⟨hvalid, hzero, hone⟩ := hfrees
    have hcached := h.cached c hc hvalid
    obtain ⟨d, hrun, hs⟩ := ifree_stored h.consistent hf
    have hresult := h.freed hc hs { (k.disk.table (k.icache c).inum).truncated with type := 0 }
    have hdisk : onDisk (ifree (k.icache c).inum (k.icache c).inode) k
        = .ok { (k.disk.table (k.icache c).inum).truncated with type := 0 }
          { k with disk := d } := by
      unfold onDisk
      rw [hcached, hrun]
    have hfrees' : Store.Frees ⟨(k.icache c).inum, (k.icache c).ref, (k.icache c).valid⟩ f := by
      refine ⟨hvalid, ?_, hone⟩
      rw [hnlink, ← hcached]
      exact hzero
    rw [if_pos hfrees', if_pos hone] at hstep
    rw [if_pos ⟨hvalid, hzero, hone⟩, bind_of_ok hdisk]
    simp only [post_bind, post_modify, post_pure, setEntry_self, setEntry_idem, hone]
    exact ⟨hresult.1, hresult.2 ▸ hstep⟩
  · have hkeeps : ¬Store.Frees ⟨(k.icache c).inum, (k.icache c).ref, (k.icache c).valid⟩ f := by
      rintro ⟨hvalid, hzero, hone⟩
      refine hfrees ⟨hvalid, ?_, hone⟩
      rw [h.cached c hc hvalid, ← hnlink]
      exact hzero
    have hentry : ({ k.icache c with ref := (k.icache c).ref - 1 } : Entry).handle
        = if (k.icache c).ref = 1 then none
          else some ⟨(k.icache c).inum, (k.icache c).ref - 1, (k.icache c).valid⟩ := by
      refine if_congr ?_ rfl rfl
      show (k.icache c).ref - 1 = 0 ↔ (k.icache c).ref = 1
      omega
    rw [if_neg hkeeps] at hstep
    rw [if_neg hfrees]
    refine ⟨h.setRef hc _, ?_⟩
    rw [store_setEntry, hentry]
    exact hstep

theorem stati_call_post (h : k.Inv) (hc : 0 < (k.icache c).ref) :
    Post (call (.stati c) k) (fun r k' => k'.Inv ∧ k.store.Step (.stati c) r k'.store)
      Kernel.Exhausted := by
  obtain ⟨f, hf⟩ := Option.ne_none_iff_exists'.mp (h.alive c hc)
  have hsize : (k.disk.table (k.icache c).inum).size = BitVec.ofNat 32 f.data.length := by
    rw [Disk.data_of_file hf, Disk.length_contents, BitVec.ofNat_toNat, BitVec.setWidth_eq]
  have hreply : Reply.stat (k.icache c).inum (k.disk.table (k.icache c).inum).type
        (k.disk.table (k.icache c).inum).nlink (k.disk.table (k.icache c).inum).size
      = .stat (k.icache c).inum f.type f.nlink (BitVec.ofNat 32 f.data.length) := by
    rw [hsize, eq_of_file hf]
  rw [call]
  refine (withInode_same_post h hc rfl).mono ?_ fun _ _ hfalse => hfalse.elim
  rintro _ k' ⟨hinv, rfl, hstore⟩
  rw [hstore, hreply]
  exact ⟨hinv, .stati (handle_of_pos hc) hf⟩

theorem readi_call_post (h : k.Inv) (hc : 0 < (k.icache c).ref) (off n : Word) :
    Post (call (.readi c off n) k)
      (fun r k' => k'.Inv ∧ k.store.Step (.readi c off n) r k'.store) Kernel.Exhausted := by
  obtain ⟨f, hf⟩ := Option.ne_none_iff_exists'.mp (h.alive c hc)
  rw [call, post_bind]
  refine (withInode_same_post h hc (readi_eq h.consistent hf off n)).mono ?_
    fun _ _ hfalse => hfalse.elim
  rintro _ k' ⟨hinv, rfl, hstore⟩
  rw [post_pure, hstore]
  exact ⟨hinv, .readi (handle_of_pos hc) hf⟩

theorem writei_call_post (h : k.Inv) (hc : 0 < (k.icache c).ref) (off : Word) {src : List Byte}
    (hsrc : src.length < 2 ^ 32) :
    Post (call (.writei c off src) k)
      (fun r k' => k'.Inv ∧ k.store.Step (.writei c off src) r k'.store) Kernel.Exhausted := by
  obtain ⟨f, hf⟩ := Option.ne_none_iff_exists'.mp (h.alive c hc)
  rw [call, post_bind]
  refine (withInode_post h hc
    (Q := fun a g => a = (f.write off.toNat src).map (fun _ => BitVec.ofNat 32 src.length) ∧
      g = (f.write off.toNat src).getD f) (E := NoSpace) ?_).mono ?_ fun _ _ he => .inl he
  · refine (writei_post h.consistent hf off hsrc).imp ?_
    rintro ⟨a, ip⟩ d ⟨ha, hs⟩
    exact ⟨_, ⟨ha, rfl⟩, hs⟩
  · rintro a k' ⟨hinv, g, ⟨rfl, rfl⟩, hstore⟩
    rw [post_pure, hstore]
    exact ⟨hinv, .writei (handle_of_pos hc) hf⟩

theorem iupdate_call_post (h : k.Inv) (hc : 0 < (k.icache c).ref)
    (major minor nlink : BitVec 16) :
    Post (call (.iupdate c major minor nlink) k)
      (fun r k' => k'.Inv ∧ k.store.Step (.iupdate c major minor nlink) r k'.store)
      Kernel.Exhausted := by
  obtain ⟨f, hf⟩ := Option.ne_none_iff_exists'.mp (h.alive c hc)
  have htype := Disk.type_ne_of_file hf
  obtain ⟨ip, hip⟩ : ∃ ip, ip = { k.disk.table (k.icache c).inum with
      major := major, minor := minor, nlink := nlink } := ⟨_, rfl⟩
  have htype' : ip.type ≠ 0 := by
    rw [hip]
    exact htype
  have hs : Stored k.disk (k.icache c).inum ip _ (k.disk.setDinode (k.icache c).inum ip) :=
    h.consistent.setDinode (Disk.lt_of_type htype) (by rw [hip]) (by rw [hip])
      fun hzero => absurd hzero htype'
  rw [if_neg htype'] at hs
  rw [call]
  refine (withInode_post h hc
    (Q := fun a g => a = Reply.done ∧
      g = { f with major := major, minor := minor, nlink := nlink })
    (E := fun _ _ => False) ?_).mono ?_ fun _ _ hfalse => hfalse.elim
  · subst hip
    exact ⟨_, ⟨rfl, by rw [eq_of_file hf]⟩, hs⟩
  · rintro a k' ⟨hinv, g, ⟨rfl, rfl⟩, hstore⟩
    rw [hstore]
    exact ⟨hinv, .iupdate (handle_of_pos hc) hf⟩

/-- Every call that the callers may make follows the specification. -/
theorem call_post (h : k.Inv) {r : Request} (hallowed : r.allowed k = true) :
    Post (call r k) (fun reply k' => k'.Inv ∧ k.store.Step r reply k'.store)
      Kernel.Exhausted := by
  have hpos : ∀ {c}, k.holds c = true → 0 < (k.icache c).ref := of_decide_eq_true
  cases r with
  | ialloc type => exact ialloc_call_post h (by simpa [Request.allowed] using hallowed)
  | iget inum =>
      rw [call, post_bind]
      obtain ⟨hfile, -⟩ := (Bool.and_eq_true _ _).mp hallowed
      refine (iget_post h (Option.isSome_iff_ne_none.mp hfile)).imp ?_
      rintro c k' ⟨hinv, hopen⟩
      exact ⟨hinv, .iget hopen⟩
  | idup c =>
      obtain ⟨hc, -⟩ := (Bool.and_eq_true _ _).mp hallowed
      refine ⟨h.setRef (hpos hc) _, ?_⟩
      rw [store_setEntry]
      exact .idup (handle_of_pos (hpos hc))
  | iput c => exact iput_post h (hpos hallowed)
  | stati c => exact stati_call_post h (hpos hallowed)
  | readi c off n =>
      obtain ⟨hc, -⟩ := (Bool.and_eq_true _ _).mp hallowed
      exact readi_call_post h (hpos hc) off n
  | writei c off src =>
      obtain ⟨hregular, hsrc⟩ := (Bool.and_eq_true _ _).mp hallowed
      obtain ⟨hc, -⟩ := (Bool.and_eq_true _ _).mp hregular
      exact writei_call_post h (hpos hc) off (of_decide_eq_true hsrc)
  | iupdate c major minor nlink =>
      exact iupdate_call_post h (hpos hallowed) major minor nlink

theorem kernelStep_ok {r : Request} {k' : Kernel} (hstep : kernelStep r k = some k') :
    r.allowed k = true ∧ ∃ reply, call r k = .ok reply k' := by
  unfold kernelStep at hstep
  split at hstep
  · rename_i hallowed
    cases hcall : call r k with
    | ok reply k₁ =>
        rw [hcall] at hstep
        cases hstep
        exact ⟨hallowed, reply, rfl⟩
    | error e k₁ =>
        rw [hcall] at hstep
        cases hstep
  · cases hstep

theorem Kernel.Fresh.inv (h : k.Fresh) : k.Inv := by
  have hnone : ∀ c, ¬0 < (k.icache c).ref := fun c => by
    rw [h.2 c]
    exact Nat.lt_irrefl 0
  exact ⟨h.1, fun c hc => absurd hc (hnone c), fun c hc => absurd hc (hnone c),
    fun c _ hc => absurd hc (hnone c)⟩

theorem inv_call (h : k.Inv) {r : Request} (hallowed : r.allowed k = true) {reply : Reply}
    {k' : Kernel} (hcall : call r k = .ok reply k') :
    k'.Inv ∧ k.store.Step r reply k'.store := by
  have hpost := call_post h hallowed
  rw [hcall] at hpost
  exact hpost

/-! ### The reference counts -/

/-- The references to a file are counted by an `int`. -/
def Store.Counted (s : Store) : Prop := ∀ c h, s.handle c = some h → h.ref < 2 ^ 31

section Counts

variable {s s' : Store}

theorem Store.Counted.setHandle (hs : s.Counted) {new : Option Handle}
    (hnew : ∀ h, new = some h → h.ref < 2 ^ 31) (c : Fin NINODE) : (s.setHandle c new).Counted := by
  intro b h hb
  by_cases hbc : b = c
  · subst hbc
    have hself : (s.setHandle b new).handle b = new := Function.update_self ..
    exact hnew h (hself.symm.trans hb)
  · exact hs b h ((Function.update_of_ne hbc ..).symm.trans hb)

theorem Store.Counted.setFile (hs : s.Counted) (i : Nat) (f : Option File) :
    (s.setFile i f).Counted := hs

theorem Store.Counted.see (hs : s.Counted) (c : Fin NINODE) : (s.see c).Counted := by
  refine hs.setHandle (fun h hseen => ?_) c
  obtain ⟨h', hc, rfl⟩ := Option.map_eq_some_iff.mp hseen
  exact hs c h' hc

theorem Store.Counted.opens {i : Nat} (hs : s.Counted)
    (hroom : ∀ c h, s.handle c = some h → h.inum = i → h.ref + 1 < 2 ^ 31)
    (hopen : s.Opens i c s') : s'.Counted := by
  cases hopen with
  | again hc hi =>
      refine hs.setHandle (fun h heq => ?_) c
      cases heq
      exact hroom c _ hc hi
  | first =>
      refine hs.setHandle (fun h heq => ?_) c
      cases heq
      exact Nat.one_lt_two_pow (by decide)

/-- The calls that are allowed do not make a count overflow. -/
theorem Store.Counted.step (hs : k.store.Counted) (hinv : k.Inv) {r : Request} {reply : Reply}
    (hallowed : r.allowed k = true) (hstep : k.store.Step r reply s') : s'.Counted := by
  cases hstep with
  | ialloc _ hnew hopen =>
      -- a free inode has no handle
      refine (hs.setFile _ _).opens (fun b h hb hi => ?_) hopen
      obtain ⟨hpos, rfl⟩ := pos_of_handle hb
      subst hi
      exact absurd hnew (hinv.alive b hpos)
  | iget hopen =>
      obtain ⟨-, hcounts⟩ := (Bool.and_eq_true _ _).mp hallowed
      refine hs.opens (fun b h hb hi => ?_) hopen
      obtain ⟨-, rfl⟩ := pos_of_handle hb
      subst hi
      have hcount := List.all_eq_true.mp hcounts b (List.mem_finRange b)
      simpa [Kernel.countable] using hcount
  | @idup c h hc =>
      obtain ⟨-, hcount⟩ := (Bool.and_eq_true _ _).mp hallowed
      obtain ⟨-, rfl⟩ := pos_of_handle hc
      refine hs.setHandle (fun h heq => ?_) c
      cases heq
      exact of_decide_eq_true hcount
  | @iput c h f hc =>
      have hstore : (if Frees h f then k.store.setFile h.inum none else k.store).Counted := by
        split_ifs
        · exact hs.setFile _ _
        · exact hs
      refine hstore.setHandle (fun h' heq => ?_) c
      split_ifs at heq
      cases heq
      exact (Nat.sub_le _ _).trans_lt (hs c h hc)
  | @stati c | @readi c => exact hs.see c
  | @writei c | @iupdate c => exact (hs.see c).setFile _ _

end Counts

end Calls

/-! ### Runs -/

section Runs

variable (run : Run kernelSystem)

theorem inv_run : ∀ i, i ≤ run.length → (run.state i).Inv := by
  refine run.invariant (fun k hk => hk.inv) ?_
  intro r k k' hinv hstep
  obtain ⟨hallowed, reply, hcall⟩ := kernelStep_ok hstep
  exact (inv_call hinv hallowed hcall).1

theorem counted_run : ∀ i, i ≤ run.length → (run.state i).store.Counted := by
  refine run.induction (P := fun i => (run.state i).store.Counted) ?_ ?_
  · intro c h hc
    exact absurd (run.starts.2 c) (pos_of_handle hc).1.ne'
  · intro i hi hs
    obtain ⟨hallowed, reply, hcall⟩ := kernelStep_ok (run.steps i hi)
    have hinv := inv_run run i hi.le
    exact hs.step hinv hallowed (inv_call hinv hallowed hcall).2

/-- The inode layer implements the store of files with handles, and its reference counts do not
overflow. -/
theorem inode_layer_refines :
    (∀ i, i < run.length → ∃ reply,
      call (run.label i) (run.state i) = .ok reply (run.state (i + 1)) ∧
        (run.state i).store.Step (run.label i) reply (run.state (i + 1)).store) ∧
      (∀ i, i ≤ run.length → ∀ r : Request, r.allowed (run.state i) = true →
        Post (call r (run.state i)) (fun _ _ => True) Kernel.Exhausted) ∧
      ∀ i, i ≤ run.length → ∀ c, ((run.state i).icache c).ref < 2 ^ 31 := by
  refine ⟨?_, ?_, ?_⟩
  · intro i hi
    obtain ⟨hallowed, reply, hcall⟩ := kernelStep_ok (run.steps i hi)
    exact ⟨reply, hcall, (inv_call (inv_run run i hi.le) hallowed hcall).2⟩
  · intro i hi r hallowed
    exact (call_post (inv_run run i hi) hallowed).imp fun _ _ _ => trivial
  · intro i hi c
    by_cases hzero : ((run.state i).icache c).ref = 0
    · rw [hzero]
      decide
    · exact counted_run run i hi c _ (handle_of_pos (Nat.pos_of_ne_zero hzero))

/-- The account of the blocks: those before the data and those of the bytes of files are in use,
each of the latter in one place. -/
theorem blocks_accounted {i : Nat} (hi : i ≤ run.length) :
    (∀ a : Word, a.toNat < (run.state i).disk.sb.size.toNat →
      ((run.state i).disk.used a.toNat = true ↔
        a.toNat < (run.state i).disk.sb.dataStart ∨
          ∃! p, holds (run.state i).disk.block (run.state i).disk.table p = some a)) ∧
    (∀ p a, holds (run.state i).disk.block (run.state i).disk.table p = some a →
      (run.state i).disk.sb.dataStart ≤ a.toNat ∧ a.toNat < (run.state i).disk.sb.size.toNat) ∧
    ∀ j s, (holds (run.state i).disk.block (run.state i).disk.table (j, s)).isSome ↔
      ∃ f, (run.state i).disk.file j = some f ∧ Slot.first s < f.data.length := by
  have hconsistent := (inv_run run i hi).consistent
  have hsound := hconsistent.sound
  refine ⟨fun a ha => ?_, fun p a hp => ⟨hsound.dataStart_le hp, hsound.lt_size hp⟩, fun j s => ?_⟩
  · have hused := hsound.exact.used_iff a
    rw [Disk.Used, and_iff_right ha] at hused
    rw [hused]
    apply or_congr_right
    constructor
    · rintro ⟨p, hp⟩
      exact ⟨p, hp, fun q hq => hsound.exact.single q p a hq hp⟩
    · exact ExistsUnique.exists
  · rw [hsound.mapped]
    cases hf : (run.state i).disk.file j with
    | none =>
        have htype : ((run.state i).disk.table j).type = 0 := by
          by_contra htype
          rw [file_eq htype] at hf
          cases hf
        rw [Disk.sizes, hconsistent.free j htype]
        simp
    | some f =>
        have hlen : f.data.length = (run.state i).disk.sizes j := by
          rw [Disk.data_of_file hf, Disk.length_contents, Disk.sizes]
        simp [← hlen]

end Runs

/-! ### A disk without files -/

/-- Two blocks of inodes, one of the map and eleven of data. -/
def emptySuper : SuperBlock := ⟨16, 11, 8, 0, 2, 2, 4⟩

def emptyDisk : Disk where
  sb := emptySuper
  block b :=
    if b = 1 then ((((((Data.zero.setWord 0 16).setWord 1 11).setWord 2 8).setWord 4 2).setWord 5
      2).setWord 6 4)
    else if b = 4 then fun x => if x = 0 then 31 else 0
    else .zero

theorem emptyDisk_table : emptyDisk.table = fun _ => .blank := by
  funext i
  unfold Disk.table
  split
  · rename_i hi
    have hi' : i < 8 := hi
    have hblock : emptyDisk.block (emptyDisk.sb.IBLOCK i) = .zero := by
      have hnum : emptyDisk.sb.IBLOCK i = 2 := by
        show BitVec.ofNat 32 (i / 8) + 2 = 2
        rw [show i / 8 = 0 by omega]
        rfl
      rw [hnum]
      rfl
    rw [Disk.dinode, hblock]
    show Inode.ofWords (fun k => Data.zero.word _) = _
    simp only [Data.word_zero]
    rfl
  · rfl

theorem holds_blank (block : Word → Data) (p : Place) : holds block (fun _ => .blank) p = none := by
  obtain ⟨i, s⟩ := p
  cases s <;> rfl

theorem emptyDisk_used : ∀ b : Fin 16, emptyDisk.used b = decide (b.val < 5) := by decide +kernel

theorem emptyDisk_consistent : emptyDisk.Consistent := by
  have hholds : ∀ p, holds emptyDisk.block emptyDisk.table p = none := by
    rw [emptyDisk_table]
    exact holds_blank _
  have hsizes : ∀ i, emptyDisk.sizes i = 0 := by
    intro i
    rw [Disk.sizes, emptyDisk_table]
    rfl
  refine ⟨⟨⟨⟨by decide, by decide, by decide, by decide, by decide⟩, by decide +kernel, ?_, ?_⟩, ?_, ?_⟩, ?_⟩
  · intro i _
    rw [emptyDisk_table]
  · refine ⟨fun a => ?_, fun p q a hp => ?_, fun p a hp => ?_⟩
    · simp only [hholds, reduceCtorEq, exists_false, or_false]
      constructor
      · rintro ⟨ha, hused⟩
        have hbit := emptyDisk_used ⟨a.toNat, ha⟩
        rw [hused] at hbit
        exact of_decide_eq_true hbit.symm
      · intro ha
        have ha' : a.toNat < 5 := ha
        refine ⟨show a.toNat < 16 by omega, ?_⟩
        exact (emptyDisk_used ⟨a.toNat, by omega⟩).trans (decide_eq_true ha')
    · rw [hholds] at hp
      cases hp
    · rw [hholds] at hp
      cases hp
  · intro i s
    rw [hholds, hsizes]
    simp
  · intro i
    rw [hsizes]
    exact Nat.zero_le _
  · intro i _
    rw [emptyDisk_table]
    rfl

def emptyKernel : Kernel where
  disk := emptyDisk
  icache _ := ⟨0, 0, false, .blank⟩

theorem emptyKernel_fresh : emptyKernel.Fresh := ⟨emptyDisk_consistent, fun _ => rfl⟩

def firstEntry : Fin NINODE := ⟨0, Nat.zero_lt_succ 49⟩

/-- A file is made, written and read from its second byte on. -/
def writtenRun : Run kernelSystem :=
  .ofExecute emptyKernel emptyKernel_fresh
    [.ialloc 2, .writei firstEntry 0 [104, 105], .readi firstEntry 1 5, .iput firstEntry]
    (.iput firstEntry) (by decide +kernel)

def Reply.of : EStateM.Result Panic Kernel Reply → Option Reply
  | .ok reply _ => some reply
  | .error _ _ => none

theorem inode_layer_refines_read :
    (writtenRun.state 2).store.Step (.readi firstEntry 1 5) (.bytes (some [105]))
      (writtenRun.state 3).store := by
  have hreply : Reply.of (call (.readi firstEntry 1 5) (writtenRun.state 2))
      = some (.bytes (some [105])) := by decide +kernel
  obtain ⟨reply, hcall, hstep⟩ := (inode_layer_refines writtenRun).1 2 (by decide)
  have hcall' : call (.readi firstEntry 1 5) (writtenRun.state 2)
      = .ok reply (writtenRun.state 3) := hcall
  rw [hcall'] at hreply
  cases hreply
  exact hstep

theorem blocks_accounted_written :
    (holds (writtenRun.state 2).disk.block (writtenRun.state 2).disk.table
      (1, .direct ⟨0, Nat.zero_lt_succ 11⟩)).isSome := by
  have hwritten : Disk.contents (writtenRun.state 2).disk 1 = [104, 105] := by decide +kernel
  have htype : ((writtenRun.state 2).disk.table 1).type ≠ 0 := by decide +kernel
  refine ((blocks_accounted writtenRun (i := 2) (by decide)).2.2 1 _).mpr ⟨_, file_eq htype, ?_⟩
  show 0 < (Disk.contents (writtenRun.state 2).disk 1).length
  rw [hwritten]
  decide

end Acos.Storage.Fs
