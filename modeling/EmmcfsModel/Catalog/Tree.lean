import EmmcfsModel.Btree.Btree
import EmmcfsModel.Catalog.Key

namespace Emmcfs

-- sizeof(struct emmcfs_unicode_string), sizeof(struct emmcfs_cattree_key),
-- sizeof(struct emmcfs_catalog_folder_record) and sizeof(struct emmcfs_catalog_file_record)
def sizeofUnicodeString : Nat := 259
def sizeofCattreeKey : Nat := 281
def sizeofCatalogFolderRecord : Nat := 76
def sizeofCatalogFileRecord : Nat := 197

-- The key_len of emmcfs_alloc_cattree_key: the name has a byte for a terminating zero.
def CattreeKey.keyLen (key : CattreeKey) : Nat :=
  sizeofCattreeKey - sizeofUnicodeString + 4 + (key.name.length + 1)

-- emmcfs_fill_cat_tree and the part of fill_btree about the nodes, whose size is a power of two
-- from one page to sixteen.
def catTree (isMountFinished caseInsensitive : Bool) (logPagesPerNode : Fin 5) :
    BtreeOps CattreeKey where
  compFn          := if caseInsensitive then cattreeCmpfnCi else cattreeCmpfn
  keyLen          := CattreeKey.keyLen
  nodeSizeBytes   := 1 <<< (pageCacheShift + logPagesPerNode)
  maxRecordLen    := sizeofCattreeKey + sizeofCatalogFileRecord + 1
  bitsNum         := 8 * (1 <<< (pageCacheShift + logPagesPerNode) - sizeofBtreeHead - bnodeFirstOffset)
  isMountFinished := isMountFinished
  node_size_ge    := by revert logPagesPerNode; decide
  node_size_le    := by revert logPagesPerNode; decide
  record_len_le   := by decide

end Emmcfs
