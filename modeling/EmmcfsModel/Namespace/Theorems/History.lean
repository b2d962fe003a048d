import EmmcfsModel.Lib.Run
import EmmcfsModel.Namespace.Theorems.Calls

namespace Emmcfs

open Code Namei Layout

variable {v : Layout} {m m' : Mount}

theorem objectOf_eq_node (hm : m.layout = v) (hr : v.node (.record k) = r.data?) :
    m.disk.objectOf r = v.node (r.place k) := by
  cases r
  case object => exact hr.symm
  case hlink  => exact hm ▸ rfl

theorem inMemory_yields {Q : Bool → Layout → Prop}
    (h : Q (v.inodes n).isSome v) : Yields (inMemory n) v Q := by
  intro s hs
  subst hs
  exact h

-- An inode that is read from its record is the one that would be written there.
theorem readVfsInode_fillCattreeValue :
    (readVfsInode k r d).fillCattreeValue d.objectId = d := rfl

theorem readVfsInode_place : (readVfsInode k r d).place = some (r.place k) := by
  cases r <;> rfl

theorem lookup_follows (h : v.Consistent) :
    Yields (lookup o k) v fun _ v' => v.Follows v' := by
  refine .counted fun hct => .bind (.cattreeFind fun r he hr => .bind (.disk fun m hm => ?_))
  rw [objectOf_eq_node hm hr]
  split
  case h_1     => exact fun _ _ => trivial
  case h_2 d hd =>
    refine .bind (inMemory_yields (.ite (fun _ => .pure ⟨h, .of_eq rfl rfl fun _ => rfl⟩)
      fun _ => .setInode ?_))
    exact (Change.load readVfsInode_place (hd.trans (by rw [readVfsInode_fillCattreeValue]))).follows h hct

theorem evict_follows (h : v.Consistent) (hn : firstFileIno ≤ n) :
    Yields (setInode n none) v fun _ v' => v.Follows v' :=
  .counted fun hct => .setInode ((Change.evict hn).follows h hct)

-- A file in memory gets blocks.
theorem write_follows (h : v.Consistent) (hn : firstFileIno ≤ n) (hc : v.inodes n = some c)
    (hk : c.kind = .reg) :
    Yields (NamespaceCall.write n full).code v fun _ v' => v.Follows v' := by
  obtain ⟨p, _, hd⟩ := h.cached n c hn hc
  refine .counted fun hct => ?_
  unfold NamespaceCall.code
  cases full
  case true =>
    refine .modifyLayout (fun v => { v with exttree := insert n v.exttree }) (fun _ => rfl) ?_
    exact (Change.extent hd hk).follows h hct
  case false =>
    refine .modifyLayout (fun v => { v with forks := insert n v.forks }) (fun _ => rfl) ?_
    exact (Change.fork hd (.inl hk)).follows h hct

namespace Mount

theorem IsDir.layout (h : m.IsDir n) : m.layout.IsDir n := by
  obtain ⟨c, hc, hk⟩ := Option.map_eq_some_iff.mp h
  exact ⟨c, hc, hk⟩

theorem leads (h : m.disk.resolve k = some n) : m.layout.Leads k n := by
  obtain ⟨r, hr, hd⟩ := Option.bind_eq_some_iff.mp h
  obtain ⟨d, hd, ho⟩ := Option.map_eq_some_iff.mp hd
  have hn : m.layout.node (.record k) = r.data? := by simp [Mount.layout, Metadata.node, hr]
  exact ⟨r.place k, d, Metadata.entry_eq_some.mpr ⟨r, hr, rfl⟩,
    (objectOf_eq_node rfl hn).symm.trans hd, ho⟩

-- What a call does to a consistent volume if the write-backs that it does not look at succeed.
theorem Step.follows (hs : m.Step call m') (hw : call.WritesBack) (h : m.layout.Consistent) :
    m.layout.Follows m'.layout := by
  obtain ⟨ha, s, hr, he⟩ := hs
  subst he
  suffices hy : Yields call.code m.layout fun _ v' => m.layout.Follows v' from
    hy.returned rfl hr
  cases call
  case create         => exact create_follows h ha.layout
  case mkdir          => exact create_follows h ha.layout
  case mknod          => exact mknod_follows h ha.layout
  case symlink        => exact symlink_follows h ha.layout
  case link           =>
    obtain ⟨⟨hl, hn, _⟩, hd⟩ := ha
    exact link_follows h (leads hl) hn hd.layout hw.1 hw.2
  case unlink         =>
    obtain ⟨⟨hl, hn, hc, hd⟩, hk⟩ := ha
    obtain ⟨c, hc⟩ := Option.isSome_iff_exists.mp hc
    exact unlink_follows h (leads hl) hn hc (fun hf => absurd (by simp [IsDir, hc, hf]) hk)
      hd.layout hw.1 hw.2
  case rmdir          =>
    obtain ⟨⟨hl, hn, _, hd⟩, _⟩ := ha
    exact rmdir_follows h (leads hl) hn hd.layout hw.1 hw.2
  case rename         =>
    obtain ⟨⟨hl, hn, _, hd⟩, hd', hne, hne', ht⟩ := ha
    exact rename_follows h (leads hl) hn hd.layout hd'.layout hne hne'
      (fun m hm => ⟨leads (ht m hm).1, (ht m hm).2.1⟩) hw.1 hw.2
  case lookup         => exact lookup_follows h
  case evict          => exact evict_follows h ha
  case write          =>
    obtain ⟨c, hc, hk⟩ := Option.map_eq_some_iff.mp ha.2
    exact write_follows h ha.1 hc hk

theorem consistent_of_run (hr : Run Step m calls m') (hw : ∀ call ∈ calls, call.WritesBack)
    (h : m.layout.Consistent) : m'.layout.Consistent := by
  induction hr
  case nil => exact h
  case cons hs _ ih =>
    exact ih (fun call hc => hw call (.tail _ hc)) (hs.follows (hw _ (.head _)) h).consistent

end Mount

end Emmcfs
