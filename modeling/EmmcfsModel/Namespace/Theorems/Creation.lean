import EmmcfsModel.Lib.Simulation
import EmmcfsModel.Namespace.Creation
import EmmcfsModel.Namespace.Theorems.Rules
import EmmcfsModel.Inode.Theorems.Numbers

namespace Emmcfs

open Code

namespace BitmapFile

variable {s s' : BitmapFile}

-- A clear bit has been set.
structure Marked (s : BitmapFile) (k : Nat) (s' : BitmapFile) : Prop where
  clear : s.inUse k = false
  inUse : ∀ i, s'.inUse i = (s.inUse i || decide (k = i))

theorem Marked.inUse_self (h : s.Marked k s') : s'.inUse k = true := by
  simp [h.inUse]

theorem Marked.own_iff (h : s.Marked k s') :
    s.inUse ino = false ∧ s'.inUse ino = true ↔ k = ino := by
  refine ⟨fun hi => ?_, fun he => he ▸ ⟨h.clear, h.inUse_self⟩⟩
  simpa [h.inUse, hi.left] using hi.right

-- The number that the loop returns is what an `unsigned int` keeps of the position of the bit.
theorem getFreeInodeLoop_marks : wp (getFreeInodeLoop fuel p (u32 (bitsPerPage * p)) offset)
    (fun r s' => ∀ ino, r = some ino → ∃ k, u32 k = ino ∧ s.Marked k s')
    (fun _ s' => s.Same s') True s := by
  induction fuel generalizing p offset s
  case zero => nofun
  case succ fuel ih =>
    rw [getFreeInodeLoop]
    refine wp_readPage (fun s₁ h₁ => wp_ite.mpr ⟨fun hb => ?_, fun hb => ?_⟩) fun _ _ h => h
    case refine_1 =>
      have hleast := Bitmap.isLeast_of_found rfl hb
      rw [wp_bind, wp_haltOn, wp_bind, wp_haltOn, wp_bind, wp_modify]
      refine ⟨fun _ => trivial, fun hge => ⟨fun _ => trivial, fun _ => ?_⟩⟩
      rw [if_neg (by unfold firstFileIno at hge; omega)]
      rintro ino ⟨⟩
      refine ⟨_, ?_, hleast.left.right, inUse_set h₁ hb⟩
      rw [bitsPerPage_eq] at hb ⊢
      unfold u32
      omega
    case refine_2 =>
      have hid : u32 (u32 (p + 1) <<< logBitsPerPage) = u32 (bitsPerPage * u32 (p + 1)) := by
        rw [Nat.shiftLeft_eq, Nat.mul_comm]
        rfl
      simp only [hid]
      refine wp_mono ih (fun r s' h ino hr => ?_) (fun _ _ h => h₁.trans h) id
      obtain ⟨k, hk, hm⟩ := h ino hr
      exact ⟨k, hk, (h₁.inUse k).symm.trans hm.clear, fun i => by rw [hm.inUse, h₁.inUse]⟩

theorem getFreeInode_marks : wp getFreeInode
    (fun r s' => ∀ ino, r = some ino → ∃ k, u32 k = ino ∧ s.Marked k s')
    (fun _ s' => s.Same s') True s := by
  have hid : u32 (s.lastUsed - s.lastUsed % bitsPerPage) =
      u32 (bitsPerPage * u32 (s.lastUsed >>> logBitsPerPage)) := by
    rw [Nat.shiftRight_eq_div_pow, bitsPerPage_eq, show 2 ^ logBitsPerPage = 32768 from rfl]
    unfold u32
    omega
  rw [getFreeInode, wp_bind, wp_get]
  simp only [hid]
  exact getFreeInodeLoop_marks

theorem request_ok (h : s.outcomes.head?.join = none) :
    request s = .ok () { s with outcomes := s.outcomes.tail } := by
  match ho : s.outcomes with
  | []          =>
    cases s
    cases ho
    rfl
  | none :: _   => simp [request, ho]
  | some e :: _ => simp [ho] at h

theorem request_fail (h : s.outcomes.head?.join = some e) :
    request s = .fail e { s with outcomes := s.outcomes.tail } := by
  match ho : s.outcomes with
  | []          => simp [ho] at h
  | none :: _   => simp [ho] at h
  | some e :: _ => simp_all [request]

-- Whether a number can be given back depends on the two requests for its page.
theorem freeInodeN_serves (ino : Nat) :
    wp (freeInodeN ino) (fun _ _ => s.Serves) (fun _ _ => ¬s.Serves) True s := by
  simp only [freeInodeN, readCreatePage, wp_bind, Serves, Outcomes.served_succ, Outcomes.served_zero,
    and_true]
  cases h₁ : s.outcomes.head?.join
  case some e =>
    rw [wp_of_fail (request_fail h₁)]
    simp
  case none =>
    rw [wp_of_ok (request_ok h₁), wp_gets, wp_bind]
    cases h₂ : s.outcomes.tail.head?.join
    case some e =>
      rw [wp_of_fail (request_fail (by exact h₂))]
      simp
    case none =>
      rw [wp_of_ok (request_ok (by exact h₂))]
      simp

-- The bit of the number is cleared. The one that was set stays set if it is another one.
theorem freeInodeN_restores (hm : s.Marked k s') (hk : u32 k = ino) :
    wp (freeInodeN ino) (fun _ t => (∀ i, t.inUse i = s.inUse i) ↔ k = ino ∧ s'.Serves)
      (fun _ t => t.inUse k = true ∧ ¬s'.Serves) True s' := by
  refine wp_mono (wp_and (freeInodeN_serves ino) (freeInodeN_spec (hk ▸ u32_lt k)))
    (fun _ t h => ⟨fun hs => ⟨?_, h.left⟩, fun ⟨he, _⟩ i => ?_⟩)
    (fun _ t h => ⟨(h.right.inUse k).trans hm.inUse_self, h.left⟩) fun _ => trivial
  case refine_1 =>
    have hclear := hs k
    rw [h.right.right, hm.inUse_self, hm.clear] at hclear
    have he : ino = k := by simpa using hclear
    exact he.symm
  case refine_2 =>
    rw [h.right.right i, hm.inUse, ← he]
    by_cases hki : k = i
    case pos => simp [← hki, hm.clear]
    case neg => simp [hki]

end BitmapFile

namespace Creation

variable {s s' : Creation} {f : CreateFailures} {t : BitmapFile} {name : List (BitVec 8)}

theorem wp_inode_of (h : s.inodes ino = some c) : wp (inode ino) Q E H s ↔ Q c s := by
  rw [wp, inode, h]

-- get_free_inode has taken a number and set the bit `k`.
structure Takes (s : Creation) (ino k : Nat) (t : BitmapFile) : Prop where
  found  : BitmapFile.getFreeInode s.numbers = .ok (some ino) t
  number : u32 k = ino
  marked : s.numbers.Marked k t

namespace Takes

variable (h : s.Takes ino k t)
include h

theorem undone_iff (hname : ¬unicodeStringMaxLen < name.length) : s.Undone f dir name ↔
    f.newInode = false ∧ ((s.inodes ino).isSome ∨ (f.saveName = false ∧ s.Refuses f ⟨dir, name⟩)) ∧
      k = ino ∧ t.Serves := by
  simp [Undone, hname, h.found, h.marked.own_iff]

theorem not_unchanged (hu : s'.numbers.inUse k = true) : ¬s.Unchanged dir s' := by
  intro hs
  rw [hs.bits, h.marked.clear] at hu
  cases hu

theorem giveBack_spec (hs : s'.numbers = t) (hnames : names ↔ ∀ key, key ∈ s'.catalog ↔ key ∈ s.catalog)
    (hsize : (s'.inodes dir).map (·.size) = (s.inodes dir).map (·.size)) :
    wp (do giveBack ino; Code.fail e : CreationCode α) (fun _ _ => False)
      (fun _ s' => s.Unchanged dir s' ↔ names ∧ k = ino ∧ t.Serves) True s' := by
  rw [wp_bind, giveBack, wp_onFail, onNumbers, wp_zoom, hs]
  refine wp_mono (BitmapFile.freeInodeN_restores h.marked h.number) (fun _ t' ht => ?_)
    (fun _ t' ht => ?_) id
  · exact ⟨fun hu => ⟨hnames.mpr hu.names, ht.mp hu.bits⟩,
      fun hn => ⟨hnames.mp hn.left, ht.mpr hn.right, hsize⟩⟩
  · exact iff_of_false (h.not_unchanged ht.left) fun hn => ht.right hn.right.right

end Takes

theorem newInode_spec (hname : ¬unicodeStringMaxLen < name.length) :
    wp (newInode f kind) (fun ino s' => ∃ k t, s.Takes ino k t ∧ f.newInode = false ∧
        s.inodes ino = none ∧ s' = { s with
          numbers := t
          inodes  := Function.update s.inodes ino (some ⟨kind, 1, 0, none, 0, none⟩) })
      (fun _ s' => s.Unchanged dir s' ↔ s.Undone f dir name) True s := by
  have hspec := BitmapFile.getFreeInode_marks (s := s.numbers)
  rw [newInode, wp_bind, onNumbers, wp_zoom]
  cases hg : BitmapFile.getFreeInode s.numbers
  case halt => rw [wp, hg]; trivial
  case fail e t =>
    have hsame := (wp_of_fail hg).mp hspec
    rw [wp_of_fail hg]
    exact iff_of_true ⟨fun _ => .rfl, hsame.inUse, rfl⟩ (.inr (.inl ⟨e, t, hg⟩))
  case ok found t =>
    have hspec := (wp_of_ok hg).mp hspec
    rw [wp_of_ok hg]
    cases found
    case none => trivial
    case some ino =>
      obtain ⟨k, hk, hmarked⟩ := hspec ino rfl
      have ht : s.Takes ino k t := ⟨hg, hk, hmarked⟩
      simp only [wp_bind, wp_get, wp_ite]
      refine ⟨fun hm => ?_, fun hm => ⟨fun hsome => ?_, fun hnone => ?_⟩⟩
      case refine_1 =>
        refine iff_of_false (ht.not_unchanged ht.marked.inUse_self) fun hu => ?_
        have := ((ht.undone_iff hname).mp hu).left
        rw [hm] at this
        cases this
      case refine_2 =>
        have hb : wp (do giveBack ino; Code.fail .einval : CreationCode Nat) (fun _ _ => False)
            (fun _ s' => s.Unchanged dir s' ↔ True ∧ k = ino ∧ t.Serves) True { s with numbers := t } :=
          ht.giveBack_spec rfl (by simp) rfl
        refine wp_bind.mp (wp_mono hb (fun _ _ => False.elim) (fun _ s' hu => ?_) id)
        rw [hu, ht.undone_iff hname]
        simp [hm, hsome]
      case refine_3 => exact ⟨k, t, ht, by simpa using hm, by simpa using hnone, rfl⟩

-- An error leaves the names if the record is refused.
theorem addNewCattreeObject_spec (hi : s.inodes ino = some c) :
    wp (addNewCattreeObject f ino key)
      (fun _ s' => ¬s.Refuses f key ∧ s'.inodes = s.inodes)
      (fun _ s' => s'.numbers = s.numbers ∧ s'.inodes = s.inodes ∧
        (s.Refuses f key ↔ ∀ k, k ∈ s'.catalog ↔ k ∈ s.catalog)) True s := by
  rw [addNewCattreeObject, wp_bind, wp_haltOn, wp_bind, wp_inode_of hi, wp_ite]
  refine ⟨fun _ => trivial, fun _ => ⟨fun ha => ?_, fun ha => ?_⟩⟩
  case refine_1 => exact ⟨rfl, rfl, iff_of_true (.inl ha) fun _ => .rfl⟩
  case refine_2 =>
    rw [btreeInsert, wp_bind, wp_get, Refuses]
    cases hins : f.insert
    case some p =>
      simp only [wp_bind, setCatalog, wp_modify, wp_fail]
      exact ⟨trivial, trivial, by simp [ha]⟩
    case none =>
      simp only [wp_ite, wp_fail, setCatalog, wp_modify]
      exact ⟨fun hk => ⟨trivial, trivial, by simp [hk]⟩, fun hk => ⟨by simp [ha, hk], trivial⟩⟩

theorem writeInodeToBnode_inodes : wp (writeInodeToBnode f ino) (fun _ _ => True)
    (fun _ s' => s'.inodes = s.inodes) True s := by
  rw [writeInodeToBnode, wp_ite]
  refine ⟨fun _ => trivial, fun _ => ?_⟩
  cases hi : s.inodes ino
  case none =>
    rw [wp_bind, wp, inode, hi]
    trivial
  case some c =>
    rw [wp_bind, wp_inode_of hi, wp_bind, wp_get]
    split
    · exact rfl
    · trivial
    · simp only [wp_ite, setCatalog, wp_modify, wp_fail]
      exact ⟨fun _ => trivial, fun _ => trivial⟩

theorem create_spec (hd : s.inodes dir = some d) :
    wp (create f dir name kind) (fun _ _ => True)
      (fun _ s' => s.Unchanged dir s' ↔ s.Undone f dir name) True s := by
  rw [create, wp_ite]
  refine ⟨fun hlong => iff_of_true ⟨fun _ => .rfl, fun _ => rfl, rfl⟩ (.inl hlong), fun hname => ?_⟩
  rw [wp_bind]
  refine wp_mono (newInode_spec hname) ?_ (fun _ _ h => h) id
  rintro ino s₁ ⟨k, t, ht, hm, hnone, rfl⟩
  have hne : dir ≠ ino := by
    rintro rfl
    cases hnone.symm.trans hd
  rw [wp_ite]
  refine ⟨fun hsave => ?_, fun hsave => ?_⟩
  case refine_1 =>
    refine iff_of_false (ht.not_unchanged ht.marked.inUse_self) fun hu => ?_
    simp [ht.undone_iff hname, hnone, hsave] at hu
  case refine_2 =>
    rw [wp_bind, modifyInode, wp_bind, wp_inode_of (Function.update_self ..), setInode, wp_modify, wp_bind,
      wp_onFail]
    refine wp_mono (addNewCattreeObject_spec (Function.update_self ..)) (fun _ s₃ h₃ => ?_)
      (fun e s₃ h₃ => ?_) id
    case refine_1 =>
      -- The directory has grown before its record is written.
      have hdir : s₃.inodes dir = some d := by
        simpa [Function.update_of_ne hne, hd] using congrFun h₃.2 dir
      rw [wp_bind, modifyInode, wp_bind, wp_inode_of hdir, setInode, wp_modify, wp_bind, wp_modify]
      refine wp_mono writeInodeToBnode_inodes (fun _ _ _ => trivial) (fun _ s' hs => ?_) id
      refine iff_of_false (fun hu => ?_) fun hu => ?_
      · have := hu.size
        simp [hs, hd] at this
      · exact h₃.1 (((ht.undone_iff hname).mp hu).2.1.resolve_left (by simp [hnone])).2
    case refine_2 =>
      have hsize : (s₃.inodes dir).map (·.size) = (s.inodes dir).map (·.size) := by
        have := congrFun h₃.2.1 dir
        simp only [Function.update_of_ne hne] at this
        rw [this]
      refine wp_mono (ht.giveBack_spec h₃.1 h₃.2.2 hsize) (fun _ _ => False.elim) (fun _ s' hu => ?_)
        id
      rw [hu, ht.undone_iff hname]
      simp [hm, hnone, hsave, Refuses]

-- After an error nothing is to be seen of the call exactly if it came before a number was taken or
-- the number can be given back.
theorem create_unchanged_iff (hd : s.inodes dir = some d)
    (hfail : create f dir name kind s = .fail e s') : s.Unchanged dir s' ↔ s.Undone f dir name :=
  (wp_of_fail hfail).mp (create_spec hd)

-- A volume with a folder `d` in the root folder.
def oneFolder : Creation where
  catalog    := AList.singleton ⟨rootIno, [0x64#8]⟩ (.object ⟨10, .dir, 1, 0⟩)
  numbers    := ⟨[(0, 2047)], 10, []⟩
  inodes
    | 1  => some ⟨.dir, 1, 1, none, 0, none⟩
    | 10 => some ⟨.dir, 1, 0, none, rootIno, some [0x64#8]⟩
    | _  => none
  filesCount := 0

-- There is no memory for the record of a file `f` in this folder.
theorem create_unchanged_enomem : ∃ e s', create ⟨false, false, true, none, none⟩ 10 [0x66#8] .reg
    oneFolder = .fail e s' ∧ oneFolder.Unchanged 10 s' := by
  have hrun : wp (create ⟨false, false, true, none, none⟩ 10 [0x66#8] .reg) (fun _ _ => False)
      (fun _ _ => True) False oneFolder := by decide +kernel
  obtain ⟨e, s', hfail, _⟩ := wp_fails hrun
  refine ⟨e, s', hfail, (create_unchanged_iff rfl hfail).mpr (.inr (.inr ?_))⟩
  exact ⟨11, ⟨[(0, 4095)], 11, []⟩, by decide +kernel, rfl, .inr ⟨rfl, .inl rfl⟩, by decide, nofun⟩

theorem keeps_number (hrun : wp (create f dir name kind) (fun _ _ => False)
    (fun _ s' => s'.numbers.inUse i = true) False s) (hi : s.numbers.inUse i = false) :
    ∃ e s', create f dir name kind s = .fail e s' ∧ ¬s.Unchanged dir s' := by
  obtain ⟨e, s', hfail, hbit⟩ := wp_fails hrun
  refine ⟨e, s', hfail, fun hu => ?_⟩
  rw [hu.bits, hi] at hbit
  cases hbit

-- The number is kept if there is no memory for the inode or for its name, or if the page of the
-- bitmap cannot be had a second time. The name is there and is counted if the folder's own record
-- cannot be written.
theorem create_leaves_traces :
    (∃ e s', create ⟨true, false, false, none, none⟩ 10 [0x66#8] .reg oneFolder = .fail e s' ∧
      ¬oneFolder.Unchanged 10 s') ∧
    (∃ e s', create ⟨false, true, false, none, none⟩ 10 [0x66#8] .reg oneFolder = .fail e s' ∧
      ¬oneFolder.Unchanged 10 s') ∧
    (∃ s, s = { oneFolder with numbers.outcomes := [none, none, some .eio] } ∧
      ∃ e s', create ⟨false, false, true, none, none⟩ 10 [0x66#8] .reg s = .fail e s' ∧
        ¬s.Unchanged 10 s') ∧
    (∃ e s', create ⟨false, false, false, none, some .eio⟩ 10 [0x66#8] .reg oneFolder = .fail e s' ∧
      ⟨10, [0x66#8]⟩ ∈ s'.catalog ∧ (s'.inodes 10).map (·.size) = some 1 ∧
      ¬oneFolder.Unchanged 10 s') := by
  refine ⟨keeps_number (i := 11) (by decide +kernel) (by decide),
    keeps_number (i := 11) (by decide +kernel) (by decide),
    ⟨_, rfl, keeps_number (i := 11) (by decide +kernel) (by decide)⟩, ?_⟩
  have hrun : wp (create ⟨false, false, false, none, some .eio⟩ 10 [0x66#8] .reg) (fun _ _ => False)
      (fun _ s' => ⟨10, [0x66#8]⟩ ∈ s'.catalog ∧ (s'.inodes 10).map (·.size) = some 1) False
      oneFolder := by decide +kernel
  obtain ⟨e, s', hfail, hname, hsize⟩ := wp_fails hrun
  exact ⟨e, s', hfail, hname, hsize, fun hu => absurd (hu.size.symm.trans hsize) (by decide)⟩

section Refinement

-- The mount with a folder that is not hard-linked, as the calls of the name space see it.
structure Represents (dir : Nat) (s : Creation) (c : CallState) : Prop where
  catalog : c.mount.disk.catalog = s.catalog
  numbers : ∀ i, i ∈ c.mount.disk.inodeBitmap ↔ s.numbers.inUse i = true
  inodes  : c.mount.inodes = s.inodes
  folder  : ∀ d, s.inodes dir = some d → d.hlinkId = none

theorem inode_simulates : Simulates (Represents dir) (inode ino) (Namei.inode ino) := by
  intro s c h
  cases hi : s.inodes ino
  case none =>
    rw [wp, inode, hi]
    trivial
  case some i =>
    rw [wp_inode_of hi, Namei.wp_inode, h.inodes, hi]
    exact ⟨fun _ he => ⟨(Option.some.inj he).symm, h⟩, nofun⟩

theorem Represents.update (h : s.Represents dir c) (hi : ino = dir → i.hlinkId = none) :
    Represents dir { s with inodes := Function.update s.inodes ino (some i) }
      { c with mount.inodes := Function.update c.mount.inodes ino (some i) } := by
  refine ⟨h.catalog, h.numbers, by rw [← h.inodes], fun d hd => ?_⟩
  by_cases he : dir = ino
  case pos =>
    rw [← he] at hd
    cases (Function.update_self ..).symm.trans hd
    exact hi he.symm
  case neg => exact h.folder d ((Function.update_of_ne he ..).symm.trans hd)

theorem modifyInode_simulates {g : VfsInode → VfsInode}
    (hg : ∀ i, i.hlinkId = none → (g i).hlinkId = none) :
    Simulates (Represents dir) (modifyInode ino g) (Namei.modifyInode ino g) := by
  intro s c h
  rw [modifyInode, wp_bind]
  cases hi : s.inodes ino
  case none =>
    rw [wp, inode, hi]
    trivial
  case some i =>
    rw [wp_inode_of hi, setInode, wp_modify, Namei.wp_modifyInode, h.inodes, hi]
    refine ⟨fun _ he => ⟨rfl, ?_⟩, nofun⟩
    cases he
    exact h.inodes ▸ h.update fun he => hg i (h.folder i (he ▸ hi))

theorem addNewCattreeObject_simulates : Simulates (Represents dir) (addNewCattreeObject f ino key)
    (Emmcfs.addNewCattreeObject none none ino key) := by
  refine .bind (fun s c h => ?_) fun _ => .bind inode_simulates fun i => ?_
  case refine_1 =>
    rw [wp_haltOn]
    exact ⟨fun _ => trivial, fun hi => wp_haltOn.mpr ⟨hi, fun _ => ⟨rfl, h⟩⟩⟩
  case refine_2 =>
    rintro s c h
    rw [wp_ite]
    refine ⟨fun _ => trivial, fun _ => ?_⟩
    rw [btreeInsert, wp_bind, wp_get]
    cases f.insert
    case some => trivial
    case none =>
      rw [wp_ite]
      refine ⟨fun _ => trivial, fun hk => ?_⟩
      rw [setCatalog, wp_modify]
      cases hl : i.hlinkId <;>
        simpa [cattreeInsert, h.catalog, hk] using ⟨rfl, h.numbers, h.inodes, h.folder⟩

theorem writeInodeToBnode_simulates : Simulates (Represents dir) (writeInodeToBnode f dir)
    (Emmcfs.writeInodeToBnode none dir) := by
  refine .ite (fun _ _ h => ⟨rfl, h⟩) fun s c h => ?_
  cases hi : s.inodes dir
  case none =>
    rw [wp_bind, wp, inode, hi]
    trivial
  case some d =>
    rw [wp_bind, wp_inode_of hi, wp_bind, wp_get]
    split
    · trivial
    · trivial
    case h_3 name _ hname =>
      rw [wp_ite]
      refine ⟨fun hk => ?_, fun _ => trivial⟩
      rw [setCatalog, wp_modify]
      simpa [h.inodes, hi, h.folder d hi, hname, h.catalog, hk] using
        ⟨rfl, h.numbers, rfl, h.folder⟩

theorem newInode_simulates (hs : s.numbers.Ok) (hb : ∃ i ∈ s.numbers.freeInos, i < 2 ^ 32)
    (h : s.Represents dir c) :
    wp (newInode f kind) (fun ino s' =>
        wp (Emmcfs.newInode ⟨none, none, none, none, none, none, none⟩ kind ino)
          (fun _ c' => s'.Represents dir c') (fun _ _ => False) False c)
      (fun _ _ => True) True s := by
  rw [newInode, wp_bind, onNumbers, wp_zoom]
  refine wp_mono (hs.getFreeInode hb) ?_ (fun _ _ _ => trivial) fun _ => trivial
  rintro _ t ⟨ino, rfl, hleast, hg⟩
  have hfree := hleast.left
  have hbit : ino ∉ c.mount.disk.inodeBitmap := by simp [h.numbers, hfree.right]
  simp only [wp_bind, wp_get, wp_ite]
  refine ⟨fun _ => trivial, fun _ => ⟨fun _ => wp_trivial, fun _ => ?_⟩⟩
  have h' : Represents dir { s with numbers := t }
      { c with mount.disk.inodeBitmap := insert ino c.mount.disk.inodeBitmap } := {
    catalog := h.catalog
    numbers := fun i => by simp [hg.inUse, h.numbers, or_comm, @eq_comm _ i]
    inodes  := h.inodes
    folder  := h.folder }
  have hge : firstFileIno ≤ ino := hfree.left
  simpa [Emmcfs.newInode, setInode, hge, hbit] using
    h'.update (i := ⟨kind, 1, 0, none, 0, none⟩) fun _ => rfl

theorem insertion_simulates : Simulates (Represents dir)
    (Code.onFail (addNewCattreeObject f ino key) fun e => do
      giveBack ino
      Code.fail e)
    (Code.onFail (Emmcfs.addNewCattreeObject none none ino key) fun e => do
      Namei.ignoring (freeInodeN none ino)
      Code.fail e) := by
  refine .onFail addNewCattreeObject_simulates fun _ _ => ?_
  rw [wp_bind]
  exact wp_imp wp_trivial fun _ _ _ => trivial

theorem counting_simulates : Simulates (Represents dir)
    (do
      modifyInode dir fun inode => { inode with size := inode.size + 1 }
      Code.modify fun s => { s with filesCount := s.filesCount + 1 }
      writeInodeToBnode f dir)
    (do
      Namei.modifyInode dir fun inode => { inode with size := inode.size + 1 }
      Emmcfs.writeInodeToBnode none dir) := by
  refine .bind (modifyInode_simulates fun _ hi => hi) fun _ => ?_
  exact .modify_bind (fun _ _ h => ⟨h.catalog, h.numbers, h.inodes, h.folder⟩)
    writeInodeToBnode_simulates

-- A volume without files.
def onlyRoot : Creation :=
  ⟨∅, ⟨[], firstFileIno, []⟩, fun ino => if ino = 1 then some ⟨.dir, 1, 0, none, 0, none⟩ else none, 0⟩

end Refinement

end Creation

end Emmcfs
