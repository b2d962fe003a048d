import EmmcfsModel.Extents.Expand

namespace Emmcfs

-- The blocks of an extent lie on a volume with a bitmap of `bytes` bytes. Block 0 stands for none.
structure ExtentInfo.OnVolume (e : ExtentInfo) (bytes : Nat) : Prop where
  first_pos : 0 < e.firstBlock
  count_pos : 0 < e.blockCount
  inside    : e.firstBlock + e.blockCount ≤ 8 * bytes

-- The blocks of extents that follow each other, and how many they are.
def blockList (es : List ExtentInfo) : List Nat :=
  es.flatMap fun e => List.range' e.firstBlock e.blockCount

def countBlocks (es : List ExtentInfo) : Nat :=
  (es.map (·.blockCount)).sum

-- The records of a file for extents that follow each other from the logical block `start` on.
def recordsFrom (ino : Nat) : (start : Nat) → List ExtentInfo → List ExttreeRecord
  | _, []          => []
  | start, e :: es => ⟨⟨ino, start⟩, some e⟩ :: recordsFrom ino (start + e.blockCount) es

def ForkInfo.inUse (fork : ForkInfo) : List ExtentInfo :=
  fork.extents.toList.take fork.usedExtents

namespace Expansion

-- The state behind the next request of the extents tree, and whether the next `k` requests succeed.
def next (s : Expansion) : Expansion :=
  { s with outcomes := s.outcomes.tail }

def Served (k : Nat) (s : Expansion) : Prop :=
  ∀ o ∈ s.outcomes.take k, o = none

variable (ino : Nat) (fs es : List ExtentInfo)

def recordsOf (s : Expansion) : List ExttreeRecord :=
  s.exttree.filter (·.key.objectId = ino)

-- The fork of a file has the extents `fs`, and the file has so many blocks behind them.
structure ForkHolds (behind : Nat) (s : Expansion) : Prop where
  used   : (s.forks ino).usedExtents ≤ extentsCountInFork
  fork   : (s.forks ino).inUse = fs
  total  : (s.forks ino).totalBlockCount = countBlocks fs + behind
  volume : ∀ e ∈ fs, e.OnVolume s.fsm.lengthInBytes

-- The extents in the fork of a file and behind them those in its records make up its blocks.
structure CoveredBy (s : Expansion) : Prop
    extends s.ForkHolds ino fs (countBlocks es) where
  records  : s.recordsOf ino = recordsFrom ino (countBlocks fs) es
  overflow : ∀ e ∈ es, e.OnVolume s.fsm.lengthInBytes
  sorted   : s.exttree.Pairwise fun q r => exttreeCmpfn q.key r.key < 0

def Covered (s : Expansion) : Prop :=
  ∃ fs es, s.CoveredBy ino fs es

-- What emmcfs_find_old_block gives for a logical block when no request fails.
def OldBlock (s : Expansion) (iblock block : Nat) : Prop :=
  findOldBlock ino iblock { s with outcomes := [] } = .ok (some block) { s with outcomes := [] }

end Expansion

end Emmcfs
