import Mathlib.Data.List.Chain
import Mathlib.Data.List.Nodup

-- Queues that are threaded through a `next` pointer of their elements. What the pointers of other
-- elements say, left over from earlier queues, does not matter.

namespace Queue

variable {α : Type} [DecidableEq α] {next : α → Option α} {q : List α} {a b tail : α}

-- The element becomes the new tail.
def link (next : α → Option α) (tail a : α) : α → Option α :=
  Function.update (Function.update next tail (some a)) a none

theorem link_self : link next tail a a = none :=
  Function.update_self ..

theorem link_tail (h : tail ≠ a) : link next tail a tail = some a := by
  rw [link, Function.update_of_ne h, Function.update_self]

theorem link_of_ne (h : b ≠ a) (ht : b ≠ tail) : link next tail a b = next b := by
  rw [link, Function.update_of_ne h, Function.update_of_ne ht]

-- A queue whose last element is the tail. What the tail points to is left open.
structure Threaded (next : α → Option α) (tail : α) (q : List α) : Prop where
  chain : q.IsChain fun a b => next a = some b
  last  : q.getLast? = some tail
  nodup : q.Nodup

namespace Threaded

omit [DecidableEq α] in
theorem singleton : Threaded next a [a] :=
  ⟨.singleton a, rfl, List.nodup_singleton a⟩

theorem link (h : Threaded next tail q) (ha : a ∉ q) :
    Threaded (link next tail a) a (q ++ [a]) := by
  obtain ⟨pre, rfl⟩ := List.getLast?_eq_some_iff.mp h.last
  have hpre : ∀ b ∈ pre, Queue.link next tail a b = next b := by
    intro b hb
    have hne : b ≠ tail := fun he => (List.nodup_append.mp h.nodup).right.right b hb tail (by simp) he
    exact link_of_ne (fun he => ha (by simp [← he, hb])) hne
  obtain ⟨hc, _, hl⟩ := List.isChain_append.mp h.chain
  have hc' : pre.IsChain fun b c => Queue.link next tail a b = some c :=
    hc.imp_of_mem_imp fun b c hb _ hn => (hpre b hb).trans hn
  refine ⟨?_, by simp, h.nodup.append (List.nodup_singleton a) (by simpa using ha)⟩
  rw [List.append_assoc]
  refine List.isChain_append.mpr ⟨hc', ?_, fun b hb c hc => ?_⟩
  · exact .cons_cons (link_tail fun he => ha (by simp [he])) (.singleton a)
  · exact (hpre b (List.mem_of_getLast? hb)).trans (hl b hb c hc)

-- The first element leaves the queue.
omit [DecidableEq α] in
theorem pop (h : Threaded next tail (a :: b :: q)) :
    next a = some b ∧ Threaded next tail (b :: q) := by
  obtain ⟨hn, hc⟩ := List.isChain_cons_cons.mp h.chain
  exact ⟨hn, hc, h.last, h.nodup.of_cons⟩

omit [DecidableEq α] in
theorem eq_tail (h : Threaded next tail [a]) : a = tail :=
  Option.some.inj h.last

end Threaded

end Queue
