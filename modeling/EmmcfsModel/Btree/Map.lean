import EmmcfsModel.Lib.Run
import EmmcfsModel.Lib.Keyed
import EmmcfsModel.Lib.SortedList
import EmmcfsModel.Btree.Invariant

namespace Emmcfs

open SortedList

-- What a tree is for: a map from keys to records. A call comes with the error that it returns, if any.
inductive MapStep [DecidableEq κ] : (κ → Option (BtreeRecord κ ν)) →
    BtreeCall κ ν × Option Errno → (κ → Option (BtreeRecord κ ν)) → Prop
  | insert : m r.key = none → MapStep m (.insert r, none) (Function.update m r.key (some r))
  | exist  : m r.key = some q → MapStep m (.insert r, some .eexist) m
  | remove : m key = some q → MapStep m (.remove key, none) (Function.update m key none)
  | absent : m key = none → MapStep m (.remove key, some .enoent) m

-- The least record of a tree stays where it is, and records have a length that the tree allows for.
def BtreeCall.Allowed [LT κ] (tree : BtreeOps κ) (least : κ) : BtreeCall κ ν → Prop
  | insert newData => least < newData.key ∧ newData.Short tree
  | remove key     => least < key

-- A call that returns, and that did not run out of nodes.
inductive BtreeStep [LT κ] (tree : BtreeOps κ) (least : κ) :
    Btree κ ν → BtreeCall κ ν × Option Errno → Btree κ ν → Prop
  | done : call.Allowed tree least → call.run tree s = .ok () s' →
    BtreeStep tree least s (call, none) s'
  | refused : call.Allowed tree least → call.run tree s = .fail e s' → e ≠ .enospc →
    BtreeStep tree least s (call, some e) s'

-- The records in the leaves of a tree are those of a map.
structure Btree.Represents [LinearOrder κ] (tree : BtreeOps κ) (least : κ) (s : Btree κ ν)
    (m : κ → Option (BtreeRecord κ ν)) : Prop where
  calm  : s.Calm
  least : m least ≠ none
  upper : ∃ leaves up recs, s.Upper tree 1 (leaves :: up) recs ∧ Sorted (recs.map (·.key)) ∧
    Keyed (·.key) recs m

end Emmcfs
