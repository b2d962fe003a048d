import EmmcfsModel.Lib.Code
import Mathlib.Algebra.Group.Int.Defs
import Mathlib.Algebra.Group.Nat.Defs

namespace Emmcfs

-- The error numbers that the modelled functions return.
inductive Errno
  | eperm | enoent | eio | enomem | efault | eexist | einval | efbig | enospc | erange
  | emlink | enametoolong | enotempty
  deriving DecidableEq, Repr

-- Driver code over a state: a reached BUG() or EMMCFS_BUG_ON halts.
abbrev Driver (σ α : Type) := Code Errno σ α

-- PAGE_CACHE_SHIFT, SECTOR_SIZE_SHIFT and SECTOR_PER_PAGE
def pageCacheShift : Nat := 12
def sectorSizeShift : Nat := 9
def sectorPerPage : Nat := 8

-- The block sizes that fill_runtime_superblock accepts: 512, 1024, 2048 and 4096 bytes.
structure BlockSize where
  shift    : Nat
  shift_ge : sectorSizeShift ≤ shift
  shift_le : shift ≤ pageCacheShift
  deriving DecidableEq, Repr

-- Blocks of a page.
def BlockSize.page : BlockSize := ⟨12, by decide, by decide⟩

-- Assignment to an `unsigned int`, and subtraction of two of them.
def u32 (n : Nat) : Nat := n % 2 ^ 32
def u32Sub (m n : Nat) : Nat := u32 (m + 2 ^ 32 - u32 n)

-- The same for an `unsigned long long`.
def u64 (n : Nat) : Nat := n % 2 ^ 64
def u64Sub (m n : Nat) : Nat := u64 (m + 2 ^ 64 - u64 n)

theorem u32_lt (n : Nat) : u32 n < 2 ^ 32 :=
  Nat.mod_lt _ (by decide)

theorem u32_of_lt (h : n < 2 ^ 32) : u32 n = n :=
  Nat.mod_eq_of_lt h

theorem u32Sub_of_le (h : n ≤ m) (hm : m < 2 ^ 32) : u32Sub m n = m - n := by
  rw [u32Sub, u32_of_lt (Nat.lt_of_le_of_lt h hm), u32]
  omega

theorem u64_of_lt (h : n < 2 ^ 64) : u64 n = n :=
  Nat.mod_eq_of_lt h

theorem u64Sub_of_le (h : n ≤ m) (hm : m < 2 ^ 64) : u64Sub m n = m - n := by
  rw [u64Sub, u64_of_lt (Nat.lt_of_le_of_lt h hm), u64]
  omega

end Emmcfs
