import EmmcfsModel.Basic

namespace Emmcfs

-- EMMCFS_EXTENTS_COUNT_IN_FORK, EMMCFS_ROOT_INO and EMMCFS_1ST_FILE_INO
def extentsCountInFork : Nat := 9
def rootIno : Nat := 1
def firstFileIno : Nat := 10

theorem extentsCountInFork_pos : 0 < extentsCountInFork := by decide

-- A chunk of blocks: the fields are a u64 and a u32.
@[ext]
structure ExtentInfo where
  firstBlock : Nat
  blockCount : Nat
  first_lt   : firstBlock < 2 ^ 64
  count_lt   : blockCount < 2 ^ 32
  deriving DecidableEq, Repr

namespace ExtentInfo

-- Assignment to the two fields.
def of (firstBlock blockCount : Nat) : ExtentInfo where
  firstBlock := firstBlock % 2 ^ 64
  blockCount := u32 blockCount
  first_lt   := Nat.mod_lt _ (by decide)
  count_lt   := u32_lt _

def zero : ExtentInfo := ⟨0, 0, by decide, by decide⟩

instance : Inhabited ExtentInfo := ⟨zero⟩

end ExtentInfo

-- The fork of an inode in memory; the preallocation fields are always 0.
@[ext]
structure ForkInfo where
  totalBlockCount : Nat
  extents         : Vector ExtentInfo extentsCountInFork
  usedExtents     : Nat
  total_lt        : totalBlockCount < 2 ^ 32
  deriving DecidableEq, Repr

-- A full fork, of nine extents of one block; the file has one more block.
def ForkInfo.full : ForkInfo where
  totalBlockCount := 10
  extents         := Vector.ofFn fun i => .of (10 + 2 * i) 1
  usedExtents     := 9
  total_lt        := by decide

@[ext]
structure Timespec where
  sec  : BitVec 64
  nsec : BitVec 64
  deriving DecidableEq, Repr

-- The fields of a VFS inode and its emmcfs_inode_info that the modelled functions use.
structure Inode where
  ino    : Nat
  mode   : BitVec 16
  uid    : BitVec 32
  gid    : BitVec 32
  nlink  : BitVec 32
  atime  : Timespec
  mtime  : Timespec
  ctime  : Timespec
  size   : BitVec 64
  rdev   : BitVec 32
  fork   : ForkInfo
  deriving DecidableEq, Repr

-- The file type bits of a mode: S_IFMT and the S_IS.. tests.
def sIfmt : BitVec 16 := 0xf000
def sIsDir (mode : BitVec 16) : Bool := mode &&& sIfmt == 0x4000#16
def sIsReg (mode : BitVec 16) : Bool := mode &&& sIfmt == 0x8000#16
def sIsLnk (mode : BitVec 16) : Bool := mode &&& sIfmt == 0xa000#16
def sIsFifo (mode : BitVec 16) : Bool := mode &&& sIfmt == 0x1000#16
def sIsSock (mode : BitVec 16) : Bool := mode &&& sIfmt == 0xc000#16
def sIsChr (mode : BitVec 16) : Bool := mode &&& sIfmt == 0x2000#16
def sIsBlk (mode : BitVec 16) : Bool := mode &&& sIfmt == 0x6000#16

end Emmcfs
