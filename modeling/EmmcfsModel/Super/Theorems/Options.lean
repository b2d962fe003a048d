import EmmcfsModel.Lib.Outcomes
import EmmcfsModel.Super.Options
import Mathlib.Data.List.Induction
import Mathlib.Data.List.ReduceOption

namespace Emmcfs

open Code

section Numbers

variable {s text : List Char}

-- No digit is a sign, so that a numeral is read in the same way as a signed number.
theorem simpleStrtol_of_unsigned (h : unsignedInt text = some n) :
    simpleStrtol text = ((n : Int), []) := by
  rw [unsignedInt] at h
  split at h
  case isFalse => cases h
  case isTrue hs =>
    cases h
    unfold simpleStrtol
    split
    case h_1 s => exact absurd hs.right (List.cons_ne_nil '-' s)
    case h_2   => rw [hs.right]

theorem matchInt_numeral (n : Numeral) :
    matchInt checked n.text = if InIntRange checked n.value then some (intOf n.value) else none := by
  have hne : [] ≠ n.text := by
    intro he
    have hn := n.of_eq
    rw [← he] at hn
    cases hn
  simp only [matchInt, simpleStrtol_of_unsigned n.of_eq]
  rw [if_neg hne]

end Numbers

theorem Numeral.read_of_none {s : List Char} (h : unsignedInt s = none) : read s = none := by
  unfold read
  split
  case h_1      => rfl
  case h_2 v hs => cases h.symm.trans hs

theorem Numeral.read_of_some {s : List Char} (h : unsignedInt s = some v) :
    read s = some ⟨s, v, h⟩ := by
  unfold read
  split
  case h_1 hn   => cases h.symm.trans hn
  case h_2 w hs => cases h.symm.trans hs; rfl

theorem matchOne_of_ne (h : word ≠ text) : matchOne word ⟨token, text, false⟩ = none := by
  rw [matchOne, if_neg Bool.false_ne_true, if_neg h]

theorem matchOne_append (token : OptionToken) (text rest : List Char) :
    matchOne (text ++ rest) ⟨token, text, true⟩ =
      if (unsignedInt rest).isSome then some (some rest) else none := by
  simp [matchOne]

theorem matchOne_eq_none (h : ¬text <+: word) :
    matchOne word ⟨token, text, true⟩ = none := by
  rw [matchOne, if_pos rfl, if_neg fun hp => h hp.left]

-- What a word is read as decides what is done with it.
theorem matchToken_eq (word args : List Char) : matchToken word args =
    match MountWord.read word with
    | none             => (.error, args)
    | some .nojournal  => (.nojournal, args)
    | some .novercheck => (.novercheck, args)
    | some .btreecheck => (.btreecheck, args)
    | some .ro         => (.readonly, args)
    | some (.count n)  => (.count, n.text) := by
  unfold MountWord.read
  split_ifs with h₁ h₂ h₃ h₄ hp
  case pos => subst h₁; rfl
  case pos => subst h₂; rfl
  case pos => subst h₃; rfl
  case pos => subst h₄; rfl
  all_goals simp only [matchToken, tokens, List.findSome?, matchOne_of_ne h₁, matchOne_of_ne h₂,
    matchOne_of_ne h₃, matchOne_of_ne h₄, Option.map_none]
  case pos =>
    obtain ⟨text, rfl⟩ := hp
    rw [matchOne_append, List.drop_left' (by rfl)]
    cases hn : unsignedInt text
    case none   => rw [Numeral.read_of_none hn]; rfl
    case some v => rw [Numeral.read_of_some hn]; rfl
  case neg =>
    rw [matchOne_eq_none hp]
    rfl

namespace OptionParser

variable {s : OptionParser} {words : List MountWord} {w : MountWord}

-- What is done with a word by what it was read as.
def execWord (checked : Bool) : MountWord → OptionCode Unit
  | .ro      => do
    modifyOptions (·.setReadonly)
    setCount checked
  | .count n => do
    Code.modify fun s => { s with args := n.text }
    setCount checked
  | w        => modifyOptions w.apply

theorem parseWord_eq (checked : Bool) (word : List Char) (s : OptionParser) :
    parseWord checked word s = match MountWord.read word with
      | none   => .fail .einval s
      | some w => execWord checked w s := by
  rw [parseWord, get_bind, matchToken_eq]
  cases MountWord.read word
  case none   => rfl
  case some w => cases w <;> rfl

-- The state after a word, if match_int succeeds.
def after (checked : Bool) (s : OptionParser) : MountWord → OptionParser
  | .ro      => { s with
    options  := { s.options.setReadonly with bugonCount := (matchInt checked s.args).getD 0 }
    outcomes := s.outcomes.tail }
  | .count n => { s with
    options  := { s.options with bugonCount := intOf n.value }
    args     := n.text
    outcomes := s.outcomes.tail }
  | w        => { s with options := w.apply s.options }

-- match_int is called with success, if it is called at all.
@[mk_iff]
structure Runs (checked : Bool) (s : OptionParser) (w : MountWord) : Prop where
  memory : w.Calls → s.outcomes.head?.join = none
  range  : ∀ n, w = .count n → InIntRange checked n.value
  args   : w = .ro → (matchInt checked s.args).isSome

theorem setCount_of_some (s : OptionParser) (hm : s.outcomes.head?.join = none)
    (hv : matchInt checked s.args = some v) :
    setCount checked s = .ok ()
      { s with options := { s.options with bugonCount := v }, outcomes := s.outcomes.tail } := by
  rw [setCount, get_bind, modify_bind, hm, hv]
  rfl

theorem setCount_halts (s : OptionParser)
    (h : s.outcomes.head?.join = none → matchInt checked s.args = none) :
    setCount checked s = .halt := by
  rw [setCount, get_bind, modify_bind]
  cases hm : s.outcomes.head?.join
  case none   => rw [h hm]; rfl
  case some e => rfl

theorem execWord_of_runs (h : Runs checked s w) :
    execWord checked w s = .ok () (s.after checked w) := by
  cases w
  case ro =>
    obtain ⟨v, hv⟩ := Option.isSome_iff_exists.mp (h.args rfl)
    rw [execWord, modifyOptions, modify_bind, after, hv]
    exact setCount_of_some _ (h.memory rfl) hv
  case count n =>
    have hv := (matchInt_numeral n).trans (if_pos (h.range n rfl))
    rw [execWord, modify_bind]
    exact setCount_of_some _ (h.memory rfl) hv
  all_goals rfl

theorem execWord_of_not_runs (h : ¬Runs checked s w) : execWord checked w s = .halt := by
  cases w
  case ro =>
    rw [execWord, modifyOptions, modify_bind]
    refine setCount_halts _ fun hm => Option.not_isSome_iff_eq_none.mp fun hv => h ?_
    exact ⟨fun _ => hm, nofun, fun _ => hv⟩
  case count n =>
    rw [execWord, modify_bind]
    refine setCount_halts _ fun hm => (matchInt_numeral n).trans (if_neg fun hr => h ?_)
    exact ⟨fun _ => hm, fun m he => by cases he; exact hr, nofun⟩
  all_goals exact absurd ⟨nofun, nofun, nofun⟩ h

def execWords (checked : Bool) : List MountWord → OptionCode Unit
  | []         => pure ()
  | w :: words => do
    execWord checked w
    execWords checked words

-- match_int is called with success for all of the words.
@[mk_iff]
structure Ready (checked : Bool) (words : List MountWord) (s : OptionParser) : Prop where
  memory : ∀ o ∈ s.outcomes.take (words.countP (·.Calls)), o = none
  range  : ∀ n, .count n ∈ words → InIntRange checked n.value
  args   : BareRo words → (matchInt checked s.args).isSome

theorem bareRo_cons : BareRo (w :: words) ↔ w = .ro ∨ ¬w.IsCount ∧ BareRo words := by
  constructor
  case mp =>
    rintro ⟨before, behind, he, hb⟩
    cases before
    case nil =>
      cases he
      exact .inl rfl
    case cons w' before =>
      cases he
      exact .inr ⟨hb _ (.head _), before, behind, rfl, fun v hv => hb v (.tail _ hv)⟩
  case mpr =>
    rintro (rfl | ⟨hw, before, behind, rfl, hb⟩)
    case inl => exact ⟨[], words, rfl, nofun⟩
    case inr => exact ⟨w :: before, behind, rfl, List.forall_mem_cons.mpr ⟨hw, hb⟩⟩

theorem ready_cons : Ready checked (w :: words) s ↔
    Runs checked s w ∧ Ready checked words (s.after checked w) := by
  rw [ready_iff, runs_iff, ready_iff, bareRo_cons]
  cases w
  case ro =>
    rw [List.countP_cons_of_pos (by rfl), ← Outcomes.Served, Outcomes.served_succ]
    simp only [List.mem_cons, reduceCtorEq, false_or, true_or, MountWord.Calls, after]
    tauto
  case count n =>
    have hs : InIntRange checked n.value → (matchInt checked n.text).isSome := by
      intro hr
      rw [matchInt_numeral, if_pos hr]
      rfl
    rw [List.countP_cons_of_pos (by rfl), ← Outcomes.Served, Outcomes.served_succ]
    simp only [List.mem_cons, MountWord.count.injEq, MountWord.Calls, after, MountWord.IsCount]
    constructor
    case mp =>
      rintro ⟨⟨hm, hm'⟩, hr, _⟩
      have hn := hr n (.inl rfl)
      exact ⟨⟨fun _ => hm, fun m he => he ▸ hn, by simp⟩, hm', fun m he => hr m (.inr he),
        fun _ => hs hn⟩
    case mpr =>
      rintro ⟨⟨hm, hn, _⟩, hm', hr, _⟩
      exact ⟨⟨hm trivial, hm'⟩, fun m he => he.elim (fun he => hn m he.symm) (hr m), by simp⟩
  all_goals
    rw [List.countP_cons_of_neg (by decide)]
    simp only [List.mem_cons, reduceCtorEq, false_or, MountWord.Calls, after, MountWord.IsCount]
    tauto

theorem execWords_of_ready (h : Ready checked words s) :
    execWords checked words s = .ok () (words.foldl (after checked) s) := by
  induction words generalizing s
  case nil => rfl
  case cons w words ih =>
    obtain ⟨hw, hr⟩ := ready_cons.mp h
    rw [execWords, bind_of_ok (execWord_of_runs hw), ih hr, List.foldl_cons]

theorem execWords_of_not_ready (h : ¬Ready checked words s) : execWords checked words s = .halt := by
  induction words generalizing s
  case nil => exact absurd ⟨by simp, nofun, fun ⟨_, _, he, _⟩ => by simp at he⟩ h
  case cons w words ih =>
    by_cases hw : Runs checked s w
    case pos =>
      rw [execWords, bind_of_ok (execWord_of_runs hw)]
      exact ih fun hr => h (ready_cons.mpr ⟨hw, hr⟩)
    case neg => rw [execWords, bind_of_halt (execWord_of_not_runs hw)]

-- The settings after some words against those that the words stand for. After a count args holds its
-- number.
structure Follows (checked : Bool) (words : List MountWord) (s : OptionParser)
    (o : MountOptions) (s' : OptionParser) : Prop where
  mountOptions : s'.options.mountOptions = o.mountOptions
  readonly     : s'.options.readonly = o.readonly
  counted      : (∃ w ∈ words, w.IsCount) → s'.options.bugonCount = o.bugonCount ∧
    matchInt checked s'.args = some o.bugonCount
  uncounted    : (∀ w ∈ words, ¬w.IsCount) → s'.args = s.args ∧ o.bugonCount = s.options.bugonCount ∧
    s'.options.bugonCount =
      if .ro ∈ words then (matchInt checked s.args).getD 0 else s.options.bugonCount

theorem Follows.count {text : List Char} {v : Int} (h : Follows checked words s o s')
    (outcomes : List (Option Errno)) (hv : matchInt checked text = some v) (hw : w.IsCount) :
    Follows checked (words ++ [w]) s { o with bugonCount := v }
      { options := { s'.options with bugonCount := v }, args := text, outcomes } where
  mountOptions := h.mountOptions
  readonly     := h.readonly
  counted      := fun _ => ⟨rfl, hv⟩
  uncounted    := fun hc => absurd hw (hc w (by simp))

theorem Follows.step (h : Follows checked words s o s')
    (hr : ∀ n, w = .count n → InIntRange checked n.value) :
    Follows checked (words ++ [w]) s (w.apply o) (s'.after checked w) := by
  have hold (hw : ¬w.IsCount) : (∃ v ∈ words ++ [w], v.IsCount) → ∃ v ∈ words, v.IsCount := by
    rintro ⟨v, hv, hc⟩
    rcases List.mem_append.mp hv with hv | hv
    case inl => exact ⟨v, hv, hc⟩
    case inr => exact absurd (List.mem_singleton.mp hv ▸ hc) hw
  have hnone : (∀ v ∈ words ++ [w], ¬v.IsCount) → ∀ v ∈ words, ¬v.IsCount :=
    fun hv v hm => hv v (List.mem_append_left _ hm)
  cases w
  case ro =>
    exact {
      mountOptions := h.mountOptions
      readonly     := rfl
      counted      := fun hc => by
        obtain ⟨_, ha⟩ := h.counted (hold id hc)
        exact ⟨by rw [after, ha]; rfl, ha⟩
      uncounted    := fun hc => by
        obtain ⟨ha, hb, _⟩ := h.uncounted (hnone hc)
        refine ⟨ha, hb, ?_⟩
        rw [if_pos (by simp), after, ha] }
  case count n =>
    have hv : matchInt checked n.text = some (intOf n.value) := by
      rw [matchInt_numeral, if_pos (hr n rfl)]
    rw [after, MountWord.apply]
    exact h.count s'.outcomes.tail hv trivial
  all_goals exact {
    mountOptions := by
      simp only [after, MountWord.apply, MountOptions.clearOption, MountOptions.setOption,
        h.mountOptions]
    readonly     := h.readonly
    counted      := fun hc => h.counted (hold id hc)
    uncounted    := fun hc => by
      simp only [List.mem_append, List.mem_singleton, reduceCtorEq, or_false]
      exact h.uncounted (hnone hc) }

theorem follows_foldl (hr : ∀ n, .count n ∈ words → InIntRange checked n.value) :
    Follows checked words s (words.foldl (fun o w => w.apply o) s.options)
      (words.foldl (after checked) s) := by
  induction words using List.reverseRecOn
  case nil => exact ⟨rfl, rfl, fun ⟨_, hw, _⟩ => (nomatch hw), fun _ => ⟨rfl, rfl, rfl⟩⟩
  case append_singleton words w ih =>
    rw [List.foldl_append, List.foldl_append]
    exact (ih fun n hn => hr n (by simp [hn])).step fun n hn => hr n (by simp [hn])

theorem wp_parseWord : wp (parseWord checked word) Q E H s ↔
    match MountWord.read word with
    | none   => E .einval s
    | some w => wp (execWord checked w) Q E H s := by
  rw [wp, parseWord_eq]
  cases MountWord.read word <;> rfl

-- The words up to the first one that is no option, and whether there is none.
def reads : List (List Char) → List MountWord × Bool
  | []         => ([], true)
  | word :: ws => if word = [] then reads ws else
    match MountWord.read word with
    | none   => ([], false)
    | some w => (w :: (reads ws).1, (reads ws).2)

theorem wp_parseWords {ws : List (List Char)} : wp (parseWords checked ws) Q E H s ↔
    wp (execWords checked (reads ws).1)
      (fun _ s' => if (reads ws).2 then Q () s' else E .einval s') E H s := by
  induction ws generalizing s
  case nil => rfl
  case cons word ws ih =>
    rw [parseWords, reads]
    by_cases hw : word = []
    case pos => rw [if_pos hw, if_pos hw]; exact ih
    case neg =>
      rw [if_neg hw, if_neg hw, wp_bind, wp_parseWord]
      cases MountWord.read word
      case none   => rfl
      case some w =>
        rw [execWords, wp_bind]
        exact wp_congr (fun _ _ => ih) fun _ _ => .rfl

theorem reads_eq (ws : List (List Char)) : reads ws =
    ((((ws.filter (· ≠ [])).map MountWord.read).takeWhile (·.isSome)).reduceOption,
      ((ws.filter (· ≠ [])).mapM MountWord.read).isSome) := by
  induction ws
  case nil => rfl
  case cons word ws ih =>
    rw [reads]
    by_cases hw : word = []
    case pos => rw [if_pos hw, ih, List.filter_cons_of_neg (by simpa using hw)]
    case neg =>
      rw [if_neg hw, ih, List.filter_cons_of_pos (by simpa using hw), List.map_cons, List.mapM_cons]
      cases MountWord.read word
      case none   => rfl
      case some w =>
        rw [List.takeWhile_cons_of_pos rfl, List.reduceOption_cons_of_some]
        cases (ws.filter (· ≠ [])).mapM MountWord.read <;> rfl

-- The state in which the words are gone through.
def start (s : OptionParser) : OptionParser :=
  { s with options := (s.options.setOption mountSnapshot).setOption mountVercheck }

theorem wp_parseOptions : wp (parseOptions checked input) Q E H s ↔
    wp (execWords checked (acceptedWords input))
      (fun _ s' => if ((optionWords input).mapM MountWord.read).isSome then Q () s' else E .einval s')
      E H s.start := by
  have hr : parseOptions checked input s =
      parseWords checked (input.elim [] (·.splitOn ',')) s.start := by
    cases input <;> rfl
  rw [wp, hr]
  exact wp_parseWords.trans (by rw [reads_eq]; rfl)

theorem wp_execWords : wp (execWords checked words) Q E False s ↔
    Ready checked words s ∧ Q () (words.foldl (after checked) s) := by
  by_cases h : Ready checked words s
  case pos => rw [wp, execWords_of_ready h]; exact (and_iff_right h).symm
  case neg => rw [wp, execWords_of_not_ready h]; exact (and_iff_left h).symm.trans (by tauto)

theorem acceptedWords_of_mapM (h : (optionWords input).mapM MountWord.read = some words) :
    acceptedWords input = words := by
  rw [acceptedWords]
  generalize optionWords input = ws at h
  induction ws generalizing words
  case nil => cases h; rfl
  case cons word ws ih =>
    rw [List.mapM_cons] at h
    obtain ⟨w, hw, h⟩ := Option.bind_eq_some_iff.mp h
    obtain ⟨words, hws, h⟩ := Option.bind_eq_some_iff.mp h
    cases h
    rw [List.map_cons, hw, List.takeWhile_cons_of_pos rfl, List.reduceOption_cons_of_some, ih hws]

theorem bareRo_of_not_isCount (h : ∀ w ∈ words, ¬w.IsCount) : BareRo words ↔ .ro ∈ words := by
  constructor
  case mp =>
    rintro ⟨before, behind, rfl, _⟩
    exact List.mem_append_right _ (.head _)
  case mpr =>
    intro hm
    obtain ⟨before, behind, rfl⟩ := List.append_of_mem hm
    exact ⟨before, behind, rfl, fun w hw => h w (List.mem_append_left _ hw)⟩

-- A count settles bugon_count; without one the first `ro` sets it to what args holds.
theorem options_foldl_iff (hr : ∀ n, .count n ∈ words → InIntRange checked n.value) :
    (words.foldl (after checked) s).options = words.foldl (fun o w => w.apply o) s.options ↔
      ((∀ w ∈ words, ¬w.IsCount) → .ro ∈ words →
        (matchInt checked s.args).getD 0 = s.options.bugonCount) := by
  have h := follows_foldl (s := s) hr
  rw [MountOptions.ext_iff]
  constructor
  case mp =>
    rintro ⟨_, _, he⟩ hc hm
    obtain ⟨_, hb, hb'⟩ := h.uncounted hc
    rw [hb, hb', if_pos hm] at he
    exact he
  case mpr =>
    intro hb
    refine ⟨h.mountOptions, h.readonly, ?_⟩
    by_cases hc : ∃ w ∈ words, w.IsCount
    case pos => exact (h.counted hc).left
    case neg =>
      have hc : ∀ w ∈ words, ¬w.IsCount := fun w hw hi => hc ⟨w, hw, hi⟩
      obtain ⟨_, ho, ho'⟩ := h.uncounted hc
      rw [ho, ho']
      split
      case isTrue hm => exact hb hc hm
      case isFalse   => rfl

-- The options are parsed as they are read exactly if match_int gets its memory whenever it is
-- called, takes every number, and finds a number in args at each `ro` that no count precedes; if
-- there is no count at all, that number is the bugon_count from before.
theorem parsesAsRead_iff (checked : Bool) (input : Option (List Char)) (s : OptionParser) :
    s.ParsesAsRead checked input ↔
      (∀ o ∈ s.outcomes.take ((acceptedWords input).countP (·.Calls)), o = none) ∧
      (∀ n, .count n ∈ acceptedWords input → InIntRange checked n.value) ∧
      (BareRo (acceptedWords input) → ∃ v, matchInt checked s.args = some v ∧
        (((optionWords input).mapM MountWord.read).isSome →
          (∀ w ∈ acceptedWords input, ¬w.IsCount) → v = s.options.bugonCount)) := by
  rw [ParsesAsRead, wp_parseOptions, wp_execWords]
  cases hw : (optionWords input).mapM MountWord.read
  case none =>
    simp only [Option.isSome_none, Bool.false_eq_true, if_false, and_true, false_imp_iff, ready_iff,
      Option.isSome_iff_exists, start]
  case some words =>
    simp only [Option.isSome_some, if_true, true_imp_iff, acceptedWords_of_mapM hw, Option.map_some,
      Option.some.injEq, eq_comm (b := OptionParser.options _)]
    constructor
    case mp =>
      rintro ⟨⟨hm, hr, ha⟩, he⟩
      refine ⟨hm, hr, fun hb => ?_⟩
      obtain ⟨v, hv⟩ := Option.isSome_iff_exists.mp (ha hb)
      refine ⟨v, hv, fun hc => ?_⟩
      have hb := (options_foldl_iff hr).mp he hc ((bareRo_of_not_isCount hc).mp hb)
      rwa [hv] at hb
    case mpr =>
      rintro ⟨hm, hr, ha⟩
      refine ⟨⟨hm, hr, fun hb => ?_⟩, (options_foldl_iff hr).mpr fun hc ho => ?_⟩
      · obtain ⟨v, hv, _⟩ := ha hb
        exact Option.isSome_iff_exists.mpr ⟨v, hv⟩
      · obtain ⟨v, hv, hb⟩ := ha ((bareRo_of_not_isCount hc).mpr ho)
        exact (congrArg (·.getD 0) hv).trans (hb hc)

-- The string "ro" is made of options only: it is a BUG where args holds no number, and sets
-- bugon_count where it holds one.
theorem not_parsesAsRead_ro :
    (optionWords (some ['r', 'o'])).mapM MountWord.read = some [.ro] ∧
      wp (parseOptions true (some ['r', 'o'])) (fun _ _ => False) (fun _ _ => False) True
        ⟨⟨0, false, 0⟩, [], []⟩ ∧
      wp (parseOptions true (some ['r', 'o'])) (fun _ s => s.options.bugonCount = 7)
        (fun _ _ => False) False ⟨⟨0, false, 0⟩, ['7'], []⟩ ∧
      ¬ParsesAsRead true (some ['r', 'o']) ⟨⟨0, false, 0⟩, [], []⟩ ∧
      ¬ParsesAsRead true (some ['r', 'o']) ⟨⟨0, false, 0⟩, ['7'], []⟩ := by
  decide +kernel

end OptionParser

end Emmcfs
