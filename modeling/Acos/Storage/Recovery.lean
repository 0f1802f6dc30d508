import Acos.Storage.Log

/-!
# What the disk holds during a commit

The steps of a commit and of a recovery, one after the other: which blocks of the disk, of the log
and of the cache agree at each of them. At every moment the disk alone determines what is durable.
-/

namespace Acos.Storage

/-! ### The header block -/

theorem readHead_setHead {lh : List Word} (hlength : lh.length ≤ LOGSIZE) (buf : Block) :
    readHead (setHead lh buf) = some lh := by
  have hshort : lh.length ≤ 30 := hlength
  have hcount : (setHead lh buf 0).toInt = lh.length := by
    change (BitVec.ofNat 32 lh.length).toInt = _
    rw [BitVec.toInt_eq_toNat_of_lt (by rw [BitVec.toNat_ofNat]; omega), BitVec.toNat_ofNat]
    omega
  rw [readHead, hcount, if_pos (by exact_mod_cast hlength), Option.some.injEq, Int.toNat_natCast]
  refine List.ext_getElem (by rw [List.length_map, List.length_range]) fun i hi hi' => ?_
  rw [List.getElem_map, List.getElem_range, setHead]
  have hval : (Fin.ofNat 128 (i + 1)).val = i + 1 := Nat.mod_eq_of_lt (by omega)
  rw [if_neg (fun heq => by have := congrArg Fin.val heq; omega), hval, Nat.add_sub_cancel,
    List.getElem?_eq_getElem hi', Option.getD_some]

theorem readHead_short {buf : Block} {lh : List Word} (hhead : readHead buf = some lh) :
    lh.length ≤ LOGSIZE := by
  obtain ⟨hcount, hlh⟩ := Option.ite_none_right_eq_some.mp hhead
  rw [← Option.some.inj hlh, List.length_map, List.length_range]
  exact Int.toNat_le.mpr hcount

/-! ### Where the blocks are -/

section Layout

variable {l : Layout} {blockno : Word} {i j : Nat}

theorem Layout.logBlock_eq (l : Layout) (i : Nat) : l.logBlock i = l.start + .ofNat 32 (i + 1) := by
  rw [Layout.logBlock, BitVec.ofNat_add, BitVec.add_assoc]
  rfl

theorem Layout.Home.ne_logBlock (hhome : l.Home blockno) (hi : i + 1 < l.size) :
    blockno ≠ l.logBlock i := by
  rw [l.logBlock_eq]
  exact hhome (i + 1) hi

theorem Layout.Home.ne_start (hhome : l.Home blockno) (hsize : 0 < l.size) :
    blockno ≠ l.start := by
  have hne := hhome 0 hsize
  rwa [BitVec.add_zero] at hne

/-- The log has a header, and the number of its blocks is an `int`. -/
def Layout.Fits (l : Layout) : Prop := 0 < l.size ∧ l.size < 2 ^ 31

theorem Layout.Fits.lt_of_lt (hfits : l.Fits) (hi : i < l.size) : i < 2 ^ 32 :=
  (hi.trans hfits.2).trans (by decide)

theorem Layout.logBlock_ne_start (hfits : l.Fits) (hi : i + 1 < l.size) :
    l.logBlock i ≠ l.start := by
  rw [l.logBlock_eq]
  intro heq
  have hval := congrArg BitVec.toNat (BitVec.add_right_eq_self.mp heq)
  rw [BitVec.toNat_ofNat, Nat.mod_eq_of_lt (hfits.lt_of_lt hi)] at hval
  exact absurd hval (Nat.succ_ne_zero i)

theorem Layout.logBlock_inj (hfits : l.Fits) (hi : i + 1 < l.size) (hj : j + 1 < l.size)
    (heq : l.logBlock i = l.logBlock j) : i = j := by
  rw [l.logBlock_eq, l.logBlock_eq] at heq
  have hval := congrArg BitVec.toNat ((BitVec.add_right_inj l.start).mp heq)
  rw [BitVec.toNat_ofNat, BitVec.toNat_ofNat, Nat.mod_eq_of_lt (hfits.lt_of_lt hi),
    Nat.mod_eq_of_lt (hfits.lt_of_lt hj)] at hval
  omega

end Layout

/-! ### The cache -/

section Cache

variable {s : Store} {b c : Word} {data : Block} {pinned pinned' : List Word}

@[simp]
theorem Store.fill_disk (s : Store) (b : Word) : (s.fill b).disk = s.disk := by
  unfold Store.fill
  split <;> rfl

@[simp]
theorem Store.fill_lh (s : Store) (b : Word) : (s.fill b).lh = s.lh := by
  unfold Store.fill
  split <;> rfl

@[simp]
theorem Store.bread_fill (s : Store) (b c : Word) : (s.fill b).bread c = s.bread c := by
  unfold Store.fill
  cases hcache : s.cache b with
  | some buf => rfl
  | none =>
      by_cases hc : c = b
      · subst hc
        simp [Store.bread, hcache]
      · simp [Store.bread, hc]

@[simp]
theorem Store.bwrite_lh (s : Store) (b : Word) (data : Block) : (s.bwrite b data).lh = s.lh := rfl

@[simp]
theorem Store.disk_bwrite_self (s : Store) (b : Word) (data : Block) :
    (s.bwrite b data).disk b = data := Function.update_self ..

theorem Store.disk_bwrite_of_ne (s : Store) (hc : c ≠ b) (data : Block) :
    (s.bwrite b data).disk c = s.disk c := Function.update_of_ne hc ..

@[simp]
theorem Store.bread_bwrite_self (s : Store) (b : Word) (data : Block) :
    (s.bwrite b data).bread b = data := by
  simp [Store.bread, Store.bwrite]

theorem Store.bread_bwrite_of_ne (s : Store) (hc : c ≠ b) (data : Block) :
    (s.bwrite b data).bread c = s.bread c := by
  simp [Store.bread, Store.bwrite, hc]

/-- A clean copy agrees with the disk, and only pinned blocks are dirty. -/
def Coherent (s : Store) (pinned : List Word) : Prop :=
  ∀ b buf, s.cache b = some buf →
    (buf.dirty = true → b ∈ pinned) ∧ (buf.dirty = false → buf.data = s.disk b)

theorem Coherent.bread_eq (hcoherent : Coherent s pinned) (hb : b ∉ pinned) :
    s.bread b = s.disk b := by
  unfold Store.bread
  cases hcache : s.cache b with
  | none => rfl
  | some buf =>
      obtain ⟨hdirty, hclean⟩ := hcoherent b buf hcache
      exact hclean (Bool.eq_false_iff.mpr fun h => hb (hdirty h))

theorem Coherent.update (hcoherent : Coherent s pinned)
    (hkeep : ∀ c ∈ pinned, c ≠ b → c ∈ pinned') {disk : Word → Block} {buf : Option Buf}
    {lh : List Word} (hdisk : ∀ c, c ≠ b → disk c = s.disk c)
    (hbuf : ∀ new, buf = some new →
      (new.dirty = true → b ∈ pinned') ∧ (new.dirty = false → new.data = disk b)) :
    Coherent ⟨disk, Function.update s.cache b buf, lh⟩ pinned' := by
  intro c new hcache
  by_cases hc : c = b
  · subst hc
    exact hbuf new (by simpa using hcache)
  · obtain ⟨hdirty, hclean⟩ := hcoherent c new (by simpa [hc] using hcache)
    exact ⟨fun h => hkeep c (hdirty h) hc, fun h => (hclean h).trans (hdisk c hc).symm⟩

theorem Coherent.fill (hcoherent : Coherent s pinned) (b : Word) : Coherent (s.fill b) pinned := by
  unfold Store.fill
  split
  · exact hcoherent
  · refine hcoherent.update (fun c hc _ => hc) (fun _ _ => rfl) fun new hnew => ?_
    cases hnew
    exact ⟨nofun, fun _ => rfl⟩

theorem Coherent.bwrite (hcoherent : Coherent s pinned) (data : Block)
    (hkeep : ∀ c ∈ pinned, c ≠ b → c ∈ pinned') : Coherent (s.bwrite b data) pinned' := by
  refine hcoherent.update hkeep (fun c hc => Function.update_of_ne hc ..) fun new hnew => ?_
  cases hnew
  exact ⟨nofun, fun _ => (Function.update_self (β := fun _ => Block) b data s.disk).symm⟩

theorem Coherent.evict (hcoherent : Coherent s pinned)
    (hclean : s.cache b = some ⟨data, false⟩) :
    Coherent { s with cache := Function.update s.cache b none } pinned ∧
      ∀ c, Store.bread { s with cache := Function.update s.cache b none } c = s.bread c := by
  refine ⟨hcoherent.update (fun c hc _ => hc) (fun _ _ => rfl) nofun, fun c => ?_⟩
  by_cases hc : c = b
  · subst hc
    simp only [Store.bread, Function.update_self, hclean, Option.elim]
    exact ((hcoherent c _ hclean).2 rfl).symm
  · simp [Store.bread, hc]

theorem Store.bread_record_self (s : Store) (b : Word) (data : Block) :
    (record s b data).bread b = data := by
  simp [record, Store.bread]

theorem Store.bread_record_of_ne (s : Store) (hc : c ≠ b) (data : Block) :
    (record s b data).bread c = s.bread c := by
  simp [record, Store.bread, hc]

theorem mem_record_lh : c ∈ (record s b data).lh ↔ c ∈ s.lh ∨ c = b := by
  unfold record
  dsimp only
  split_ifs with hb
  · exact ⟨.inl, fun h => h.elim id fun heq => heq ▸ hb⟩
  · simp

theorem Coherent.record (hcoherent : Coherent s s.lh) (b : Word) (data : Block) :
    Coherent (record s b data) (record s b data).lh := by
  refine hcoherent.update (fun c hc _ => mem_record_lh.mpr (.inl hc)) (fun _ _ => rfl) ?_
  intro new hnew
  cases hnew
  exact ⟨fun _ => mem_record_lh.mpr (.inr rfl), nofun⟩

end Cache

/-! ### What the disk says -/

/-- The block numbers of a transaction. -/
structure Listed (l : Layout) (blocks : List Word) : Prop where
  nodup : blocks.Nodup
  home : ∀ b ∈ blocks, l.Home b
  short : blocks.length ≤ LOGSIZE
  room : ∀ i, i < blocks.length → i + 1 < l.size

theorem listed_nil (l : Layout) : Listed l [] :=
  ⟨List.nodup_nil, nofun, Nat.zero_le _, fun i hi => absurd hi (Nat.not_lt_zero i)⟩

theorem Listed.record {l : Layout} {s : Store} {b : Word} (hlisted : Listed l s.lh)
    (hhome : l.Home b)
    (hroom : b ∉ s.lh → s.lh.length < LOGSIZE ∧ s.lh.length + 1 < l.size)
    (data : Block) : Listed l (record s b data).lh := by
  unfold Storage.record
  dsimp only
  split_ifs with hb
  · exact hlisted
  · obtain ⟨hsize, hspace⟩ := hroom hb
    refine ⟨?_, ?_, ?_, ?_⟩
    · exact List.nodup_append.mpr ⟨hlisted.nodup, List.nodup_singleton b, fun c hc d hd heq =>
        hb (List.mem_singleton.mp hd ▸ heq ▸ hc)⟩
    · intro c hc
      rcases List.mem_append.mp hc with hc | hc
      · exact hlisted.home c hc
      · exact List.mem_singleton.mp hc ▸ hhome
    · rw [List.length_append, List.length_singleton]
      exact hsize
    · intro i hi
      rw [List.length_append, List.length_singleton] at hi
      omega

abbrev HomeBlock (l : Layout) := { b : Word // l.Home b }

abbrev Contents (l : Layout) := HomeBlock l → Block

/-- The blocks of the log hold the contents of the listed ones. -/
def Logged (l : Layout) (disk : Word → Block) (contents : Contents l) (blocks : List Word) : Prop :=
  ∀ i (b : HomeBlock l), blocks[i]? = some b.1 → disk (l.logBlock i) = contents b

/-- The disk alone determines the contents, whatever memory holds. -/
def Recoverable (l : Layout) (disk : Word → Block) (contents : Contents l) : Prop :=
  ∃ blocks, Listed l blocks ∧ readHead (disk l.start) = some blocks ∧
    Logged l disk contents blocks ∧ ∀ b : HomeBlock l, b.1 ∉ blocks → disk b = contents b

/-- There is nothing in the log. -/
structure Settled (l : Layout) (s : Store) (durable : Contents l) : Prop where
  head : readHead (s.disk l.start) = some []
  coherent : Coherent s s.lh
  disk : ∀ b : HomeBlock l, s.disk b = durable b

/-- What holds at each point of a commit or a recovery, in terms of the durable contents. -/
def Phase (l : Layout) (s : Store) (durable volatile : Contents l) : Option Task → Prop
  | none => Settled l s durable
  | some (.writeLog tail) => Settled l s durable ∧ tail ≤ s.lh.length ∧
      Logged l s.disk (fun b => s.bread b) (s.lh.take tail)
  | some .writeHead => Settled l s durable ∧ Logged l s.disk (fun b => s.bread b) s.lh
  | some .readHead => Coherent s [] ∧ volatile = durable ∧ Recoverable l s.disk durable
  | some (.install tail) => volatile = durable ∧ readHead (s.disk l.start) = some s.lh ∧
      Logged l s.disk durable s.lh ∧ Coherent s (s.lh.drop tail) ∧
      ∀ b : HomeBlock l, b.1 ∉ s.lh.drop tail → s.disk b = durable b
  | some .eraseHead => volatile = durable ∧ s.lh = [] ∧ Coherent s [] ∧
      Recoverable l s.disk durable ∧ ∀ b : HomeBlock l, s.disk b = durable b
  | some .finish => volatile = durable ∧ s.lh = [] ∧ Settled l s durable

section Steps

variable {l : Layout} {s s' : Store} {durable volatile : Contents l} {task next : Task}

theorem Settled.recoverable (hsettled : Settled l s durable) : Recoverable l s.disk durable :=
  ⟨[], listed_nil l, hsettled.head, fun i b hi => by simp at hi, fun b _ => hsettled.disk b⟩

theorem Phase.recoverable {at? : Option Task} (hlisted : Listed l s.lh)
    (hphase : Phase l s durable volatile at?) : Recoverable l s.disk durable := by
  cases at? with
  | none => exact Settled.recoverable hphase
  | some task =>
      cases task with
      | writeLog tail => exact hphase.1.recoverable
      | writeHead => exact hphase.1.recoverable
      | readHead => exact hphase.2.2
      | install tail =>
          obtain ⟨-, hhead, hlogged, -, hdisk⟩ := hphase
          exact ⟨s.lh, hlisted, hhead, hlogged, fun b hb => hdisk b fun hmem =>
            hb (List.mem_of_mem_drop hmem)⟩
      | eraseHead => exact hphase.2.2.2.1
      | finish => exact hphase.2.2.recoverable

/-- A write to the log area leaves the home blocks alone. -/
theorem Settled.bwrite (hsettled : Settled l s durable) {b : Word} (hb : b ≠ l.start)
    (hhome : ∀ c : HomeBlock l, c.1 ≠ b) (data : Block) : Settled l (s.bwrite b data) durable where
  head := by
    rw [Store.disk_bwrite_of_ne s hb.symm]
    exact hsettled.head
  coherent := hsettled.coherent.bwrite data fun c hc _ => hc
  disk c := by
    rw [Store.disk_bwrite_of_ne s (hhome c)]
    exact hsettled.disk c

theorem Settled.fill (hsettled : Settled l s durable) (b : Word) : Settled l (s.fill b) durable :=
  ⟨by rw [Store.fill_disk]; exact hsettled.head,
    by rw [Store.fill_lh]; exact hsettled.coherent.fill b,
    fun c => by rw [Store.fill_disk]; exact hsettled.disk c⟩

theorem Phase.writeLog {tail : Nat} {b : Word} (hfits : l.Fits) (hlisted : Listed l s.lh)
    (hphase : Phase l s durable volatile (some (.writeLog tail))) (hb : s.lh[tail]? = some b) :
    Phase l ((s.fill b).bwrite (l.logBlock tail) (s.bread b)) durable volatile
      (some (.writeLog (tail + 1))) := by
  obtain ⟨hsettled, _, hlogged⟩ := hphase
  have htail : tail < s.lh.length := (List.getElem?_eq_some_iff.mp hb).1
  have hroom := hlisted.room tail htail
  have hhome : ∀ c : HomeBlock l, c.1 ≠ l.logBlock tail := fun c => c.2.ne_logBlock hroom
  refine ⟨(hsettled.fill b).bwrite (Layout.logBlock_ne_start hfits hroom) hhome _, ?_, ?_⟩
  · rw [Store.bwrite_lh, Store.fill_lh]
    exact htail
  · intro i c hi
    rw [Store.bwrite_lh, Store.fill_lh] at hi
    dsimp only
    rw [Store.bread_bwrite_of_ne _ (hhome c), Store.bread_fill]
    have hilt : i < tail + 1 := by
      have hlength := (List.getElem?_eq_some_iff.mp hi).1
      rw [List.length_take] at hlength
      omega
    rcases Nat.lt_succ_iff_lt_or_eq.mp hilt with hless | rfl
    · have hne : l.logBlock i ≠ l.logBlock tail := fun heq => by
        have := Layout.logBlock_inj hfits (hlisted.room i (by omega)) hroom heq
        omega
      rw [Store.disk_bwrite_of_ne _ hne, Store.fill_disk]
      refine hlogged i c ?_
      rwa [List.getElem?_take_of_lt hless, ← List.getElem?_take_of_lt hilt]
    · rw [List.getElem?_take_of_lt hilt, hb, Option.some.injEq] at hi
      rw [Store.disk_bwrite_self, hi]

/-- The commit: what has been visible becomes durable. -/
theorem Phase.writeHead (hfits : l.Fits) (hlisted : Listed l s.lh)
    (hphase : Phase l s durable volatile (some .writeHead))
    (hview : ∀ b : HomeBlock l, s.bread b = volatile b) :
    Phase l (s.bwrite l.start (setHead s.lh (s.bread l.start))) volatile volatile
      (some (.install 0)) := by
  obtain ⟨hsettled, hlogged⟩ := hphase
  refine ⟨rfl, ?_, ?_, ?_, ?_⟩
  · rw [Store.disk_bwrite_self, readHead_setHead hlisted.short]
    rfl
  · intro i b hi
    have hroom := hlisted.room i (List.getElem?_eq_some_iff.mp hi).1
    rw [Store.disk_bwrite_of_ne s (Layout.logBlock_ne_start hfits hroom), ← hview b]
    exact hlogged i b hi
  · exact hsettled.coherent.bwrite _ fun c hc _ => hc
  · intro b hb
    rw [Store.disk_bwrite_of_ne s (b.2.ne_start hfits.1), ← hview b,
      hsettled.coherent.bread_eq hb]

theorem Phase.readHead {blocks : List Word}
    (hphase : Phase l s durable volatile (some .readHead))
    (hhead : Storage.readHead (s.bread l.start) = some blocks) :
    Listed l blocks ∧
      Phase l { s.fill l.start with lh := blocks } durable volatile (some (.install 0)) := by
  obtain ⟨hcoherent, hsame, blocks', hlisted, hhead', hlogged, hdisk⟩ := hphase
  rw [hcoherent.bread_eq List.not_mem_nil, hhead', Option.some.injEq] at hhead
  subst hhead
  have hfill := hcoherent.fill l.start
  refine ⟨hlisted, hsame, ?_, ?_, ?_, ?_⟩
  · rw [Store.fill_disk]
    exact hhead'
  · rw [Store.fill_disk]
    exact hlogged
  · intro b buf hcache
    obtain ⟨hdirty, hclean⟩ := hfill b buf hcache
    exact ⟨fun h => absurd (hdirty h) List.not_mem_nil, hclean⟩
  · intro b hb
    rw [Store.fill_disk]
    exact hdisk b hb

theorem Phase.install {tail : Nat} {b : Word} (hfits : l.Fits) (hlisted : Listed l s.lh)
    (hphase : Phase l s durable volatile (some (.install tail))) (hb : s.lh[tail]? = some b) :
    Phase l ((s.fill (l.logBlock tail)).bwrite b (s.bread (l.logBlock tail))) durable volatile
      (some (.install (tail + 1))) := by
  obtain ⟨hsame, hhead, hlogged, hcoherent, hdisk⟩ := hphase
  have hmem : b ∈ s.lh := List.mem_of_getElem? hb
  have hhome := hlisted.home b hmem
  have htail : tail < s.lh.length := (List.getElem?_eq_some_iff.mp hb).1
  have hroom := hlisted.room tail htail
  have hdrop : s.lh.drop tail = b :: s.lh.drop (tail + 1) := by
    rw [List.drop_eq_getElem_cons htail, (List.getElem?_eq_some_iff.mp hb).2]
  have hdata : s.bread (l.logBlock tail) = durable ⟨b, hhome⟩ := by
    rw [hcoherent.bread_eq fun h =>
      (hlisted.home _ (List.mem_of_mem_drop h)).ne_logBlock hroom rfl]
    exact hlogged tail ⟨b, hhome⟩ hb
  refine ⟨hsame, ?_, ?_, ?_, ?_⟩
  · rw [Store.disk_bwrite_of_ne _ (hhome.ne_start hfits.1).symm, Store.fill_disk, hhead]
    rw [Store.bwrite_lh, Store.fill_lh]
  · intro i c hi
    rw [Store.bwrite_lh, Store.fill_lh] at hi
    have hi' := hlisted.room i (List.getElem?_eq_some_iff.mp hi).1
    rw [Store.disk_bwrite_of_ne _ (hhome.ne_logBlock hi').symm, Store.fill_disk]
    exact hlogged i c hi
  · rw [Store.bwrite_lh, Store.fill_lh]
    refine (hcoherent.fill _).bwrite _ fun c hc hne => ?_
    rw [hdrop] at hc
    exact (List.mem_cons.mp hc).resolve_left hne
  · intro c hc
    rw [Store.bwrite_lh, Store.fill_lh] at hc
    by_cases hcb : c.1 = b
    · subst hcb
      rw [Store.disk_bwrite_self, hdata]
    · rw [Store.disk_bwrite_of_ne _ hcb, Store.fill_disk]
      refine hdisk c fun h => ?_
      rw [hdrop] at h
      exact (List.mem_cons.mp h).elim hcb hc

theorem Phase.installed {tail : Nat} (hlisted : Listed l s.lh)
    (hphase : Phase l s durable volatile (some (.install tail))) (hend : s.lh[tail]? = none) :
    Phase l { s with lh := [] } durable volatile (some .eraseHead) := by
  have hrecoverable := Phase.recoverable hlisted hphase
  obtain ⟨hsame, hhead, hlogged, hcoherent, hdisk⟩ := hphase
  have hdrop : s.lh.drop tail = [] := List.drop_eq_nil_of_le (List.getElem?_eq_none_iff.mp hend)
  rw [hdrop] at hcoherent
  refine ⟨hsame, rfl, hcoherent, hrecoverable, fun b => hdisk b ?_⟩
  rw [hdrop]
  exact List.not_mem_nil

theorem Phase.eraseHead (hfits : l.Fits)
    (hphase : Phase l s durable volatile (some .eraseHead)) :
    Phase l (s.bwrite l.start (setHead s.lh (s.bread l.start))) durable volatile
      (some .finish) := by
  obtain ⟨hsame, hlh, hcoherent, -, hdisk⟩ := hphase
  refine ⟨hsame, hlh, ?_, ?_, fun b => ?_⟩
  · rw [Store.disk_bwrite_self, hlh]
    exact readHead_setHead (Nat.zero_le _) _
  · rw [Store.bwrite_lh, hlh]
    exact hcoherent.bwrite _ fun c hc _ => hc
  · rw [Store.disk_bwrite_of_ne s (b.2.ne_start hfits.1)]
    exact hdisk b

/-- Only the write of the header makes something durable. -/
def Task.commits (task : Task) (old new : Contents l) : Contents l :=
  match task with
  | .writeHead => new
  | _ => old

theorem Phase.turn (hfits : l.Fits) (hlisted : Listed l s.lh)
    (hphase : Phase l s durable volatile (some task))
    (hview : task = .writeHead → ∀ b : HomeBlock l, s.bread b = volatile b)
    (hturn : task.Turn l s s' next) :
    Listed l s'.lh ∧ Phase l s' (task.commits durable volatile) volatile (some next) := by
  cases hturn with
  | writeLog hb =>
      refine ⟨?_, hphase.writeLog hfits hlisted hb⟩
      rwa [Store.bwrite_lh, Store.fill_lh]
  | logged hend =>
      obtain ⟨hsettled, hle, hlogged⟩ := hphase
      rw [List.take_of_length_le (List.getElem?_eq_none_iff.mp hend)] at hlogged
      exact ⟨hlisted, hsettled, hlogged⟩
  | writeHead => exact ⟨hlisted, hphase.writeHead hfits hlisted (hview rfl)⟩
  | readHead hhead => exact hphase.readHead hhead
  | install hb =>
      refine ⟨?_, hphase.install hfits hlisted hb⟩
      rwa [Store.bwrite_lh, Store.fill_lh]
  | installed hend => exact ⟨listed_nil l, hphase.installed hlisted hend⟩
  | eraseHead => exact ⟨hlisted, hphase.eraseHead hfits⟩

/-- No turn of a commit is visible. -/
theorem Phase.view_turn (hfits : l.Fits) (hlisted : Listed l s.lh)
    (hphase : Phase l s durable volatile (some task))
    (hview : ∀ b : HomeBlock l, s.bread b = volatile b) (hturn : task.Turn l s s' next)
    (b : HomeBlock l) : s'.bread b = volatile b := by
  cases hturn with
  | writeLog hc =>
      have hroom := hlisted.room _ (List.getElem?_eq_some_iff.mp hc).1
      rw [Store.bread_bwrite_of_ne _ (b.2.ne_logBlock hroom), Store.bread_fill, hview]
  | logged | installed => exact hview b
  | writeHead | eraseHead => rw [Store.bread_bwrite_of_ne _ (b.2.ne_start hfits.1), hview]
  | readHead hhead => exact (Store.bread_fill s l.start b).trans (hview b)
  | @install tail c hc =>
      by_cases hbc : b.1 = c
      · subst hbc
        obtain ⟨hsame, -, hlogged, hcoherent, -⟩ := hphase
        have hroom := hlisted.room tail (List.getElem?_eq_some_iff.mp hc).1
        rw [Store.bread_bwrite_self, hcoherent.bread_eq fun h =>
          (hlisted.home _ (List.mem_of_mem_drop h)).ne_logBlock hroom rfl, hlogged tail b hc,
          hsame]
      · rw [Store.bread_bwrite_of_ne _ hbc, Store.bread_fill, hview]

theorem Phase.congr {at? : Option Task} (hphase : Phase l s durable volatile at?)
    (hdisk : s'.disk = s.disk) (hlh : s'.lh = s.lh) (hbread : ∀ b, s'.bread b = s.bread b)
    (hcoherent : ∀ pinned, Coherent s pinned → Coherent s' pinned) :
    Phase l s' durable volatile at? := by
  have hsettled : Settled l s durable → Settled l s' durable := fun h =>
    ⟨hdisk ▸ h.head, hlh ▸ hcoherent _ h.coherent, hdisk ▸ h.disk⟩
  cases at? with
  | none => exact hsettled hphase
  | some task =>
      cases task with
      | writeLog tail =>
          refine ⟨hsettled hphase.1, hlh ▸ hphase.2.1, fun i b hi => ?_⟩
          dsimp only
          rw [hdisk, hbread]
          exact hphase.2.2 i b (hlh ▸ hi)
      | writeHead =>
          refine ⟨hsettled hphase.1, fun i b hi => ?_⟩
          dsimp only
          rw [hdisk, hbread]
          exact hphase.2 i b (hlh ▸ hi)
      | readHead => exact ⟨hcoherent _ hphase.1, hphase.2.1, hdisk ▸ hphase.2.2⟩
      | install tail =>
          obtain ⟨hsame, hhead, hlogged, hpinned, hrest⟩ := hphase
          refine ⟨hsame, ?_, ?_, hlh ▸ hcoherent _ hpinned, ?_⟩
          · rw [hdisk, hlh]
            exact hhead
          · rw [hdisk, hlh]
            exact hlogged
          · rw [hdisk, hlh]
            exact hrest
      | eraseHead =>
          exact ⟨hphase.1, hlh ▸ hphase.2.1, hcoherent _ hphase.2.2.1, hdisk ▸ hphase.2.2.2.1,
            hdisk ▸ hphase.2.2.2.2⟩
      | finish => exact ⟨hphase.1, hlh ▸ hphase.2.1, hsettled hphase.2.2⟩

theorem Phase.bread_eq (hphase : Phase l s durable volatile (some .finish))
    (b : HomeBlock l) : s.bread b = volatile b := by
  obtain ⟨hsame, hlh, hsettled⟩ := hphase
  have hcoherent := hsettled.coherent
  rw [hlh] at hcoherent
  rw [hcoherent.bread_eq List.not_mem_nil, hsettled.disk, hsame]

theorem Phase.exists_step (hphase : Phase l s durable volatile (some task))
    (hfinish : task ≠ .finish) : ∃ store next, task.step l s = some (store, next) := by
  refine Task.exists_step hfinish ?_
  rintro rfl
  obtain ⟨hcoherent, -, blocks, -, hhead, -⟩ := hphase
  exact ⟨blocks, by rwa [hcoherent.bread_eq List.not_mem_nil]⟩

/-- A bound for the steps that are left. -/
def Task.left (s : Store) : Task → Nat
  | .writeLog tail => s.lh.length - tail + s.lh.length + 7
  | .writeHead => s.lh.length + 6
  | .readHead => LOGSIZE + 6
  | .install tail => s.lh.length - tail + 5
  | .eraseHead => 3
  | .finish => 2

theorem Task.left_turn (hturn : task.Turn l s s' next) : next.left s' < task.left s := by
  cases hturn with
  | writeLog hb | install hb =>
      have hlt := (List.getElem?_eq_some_iff.mp hb).1
      simp only [Task.left, Store.bwrite_lh, Store.fill_lh]
      omega
  | readHead hhead =>
      have hshort := readHead_short hhead
      simp only [Task.left]
      omega
  | writeHead =>
      simp only [Task.left, Store.bwrite_lh]
      omega
  | logged | installed | eraseHead =>
      simp only [Task.left]
      omega

end Steps

end Acos.Storage
