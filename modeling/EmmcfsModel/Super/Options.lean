import EmmcfsModel.Basic
import Mathlib.Data.List.Basic

namespace Emmcfs

-- What the mount options change: mount_options in emmcfs_sb_info, MS_RDONLY in s_flags, and
-- bugon_count, which is an int.
@[ext]
structure MountOptions where
  mountOptions : BitVec 32
  readonly     : Bool
  bugonCount   : Int
  deriving DecidableEq

-- EMMCFS_MOUNT_SNAPSHOT, EMMCFS_MOUNT_VERCHECK and EMMCFS_MOUNT_BTREE_CHECK
def mountSnapshot : BitVec 32 := 0x00000001
def mountVercheck : BitVec 32 := 0x00000100
def mountBtreeCheck : BitVec 32 := 0x00001000

namespace MountOptions

def setOption (option : BitVec 32) (o : MountOptions) : MountOptions :=
  { o with mountOptions := o.mountOptions ||| option }

def clearOption (option : BitVec 32) (o : MountOptions) : MountOptions :=
  { o with mountOptions := o.mountOptions &&& ~~~option }

-- EMMCFS_SET_READONLY
def setReadonly (o : MountOptions) : MountOptions :=
  { o with readonly := true }

end MountOptions

section Numbers

-- The value of a digit, 16 if it is none.
def digitValue (c : Char) : Nat :=
  if '0' ≤ c ∧ c ≤ '9' then c.toNat - '0'.toNat
  else if 'a' ≤ c ∧ c ≤ 'f' then c.toNat - 'a'.toNat + 10
  else if 'A' ≤ c ∧ c ≤ 'F' then c.toNat - 'A'.toNat + 10
  else 16

-- The base that a number starts with, and its digits.
def guessBase : List Char → Nat × List Char
  | '0' :: x :: c :: s =>
    if (x = 'x' ∨ x = 'X') ∧ digitValue c < 16 then (16, c :: s) else (8, '0' :: x :: c :: s)
  | '0' :: s           => (8, '0' :: s)
  | s                  => (10, s)

-- simple_strtoul in base 0: the number, which becomes an unsigned long later, and what is behind it.
def simpleStrtoul (s : List Char) : Nat × List Char :=
  let (base, digits) := guessBase s
  ((digits.takeWhile (digitValue · < base)).foldl (fun n c => n * base + digitValue c) 0,
    digits.dropWhile (digitValue · < base))

def simpleStrtol : List Char → Int × List Char
  | '-' :: s => (-(simpleStrtoul s).1, (simpleStrtoul s).2)
  | s        => ((simpleStrtoul s).1, (simpleStrtoul s).2)

-- A number that is read into a long, and the int that it is then assigned to.
def longOf (n : Int) : Int := n.bmod (2 ^ 64)
def intOf (n : Int) : Int := (longOf n).bmod (2 ^ 32)

-- Newer kernels refuse a long that is no int.
def InIntRange (checked : Bool) (n : Int) : Prop :=
  checked → -2 ^ 31 ≤ longOf n ∧ longOf n < 2 ^ 31

instance : Decidable (InIntRange checked n) :=
  inferInstanceAs (Decidable (_ → _))

-- match_int, if there is memory for a copy of the substring.
def matchInt (checked : Bool) (s : List Char) : Option Int :=
  let (n, endp) := simpleStrtol s
  if endp = s then none else if InIntRange checked n then some (intOf n) else none

-- What a substring that %u stands for is.
def unsignedInt (s : List Char) : Option Nat :=
  if s ≠ [] ∧ (simpleStrtoul s).2 = [] then some (simpleStrtoul s).1 else none

end Numbers

inductive OptionToken
  | nojournal | novercheck | btreecheck | readonly | count | error
  deriving DecidableEq, Repr

-- A pattern of the table of tokens: a text, with %u behind it or without.
structure OptionPattern where
  token    : OptionToken
  text     : List Char
  unsigned : Bool

def tokens : List OptionPattern := [
  ⟨.nojournal, ['n', 'o', 'j', 'o', 'u', 'r', 'n', 'a', 'l'], false⟩,
  ⟨.novercheck, ['n', 'o', 'v', 'e', 'r', 'c', 'h', 'e', 'c', 'k'], false⟩,
  ⟨.btreecheck, ['b', 't', 'r', 'e', 'e', 'c', 'h', 'e', 'c', 'k'], false⟩,
  ⟨.readonly, ['r', 'o'], false⟩,
  ⟨.count, ['c', 'o', 'u', 'n', 't', '='], true⟩]

-- Whether a word matches a pattern, and the substring for %u.
def matchOne (word : List Char) (p : OptionPattern) : Option (Option (List Char)) :=
  if p.unsigned then
    if p.text <+: word ∧ (unsignedInt (word.drop p.text.length)).isSome then
      some (some (word.drop p.text.length))
    else none
  else if word = p.text then some none else none

-- match_token; args[0] is filled for a pattern with a placeholder only.
def matchToken (word args : List Char) : OptionToken × List Char :=
  match tokens.findSome? fun p => (matchOne word p).map (p.token, ·) with
  | none               => (.error, args)
  | some (token, text) => (token, text.getD args)

-- The state of emmcfs_parse_options: the settings, what stands from args[0].from to args[0].to, and
-- the outcomes of the allocations of match_int. At the start args is not initialised.
structure OptionParser where
  options  : MountOptions
  args     : List Char
  outcomes : List (Option Errno)

abbrev OptionCode (α : Type) := Driver OptionParser α

namespace OptionParser

def modifyOptions (f : MountOptions → MountOptions) : OptionCode Unit :=
  Code.modify fun s => { s with options := f s.options }

-- The case option_count: whatever match_int returns is a BUG if it is not 0.
def setCount (checked : Bool) : OptionCode Unit := do
  let s ← Code.get
  Code.modify fun s => { s with outcomes := s.outcomes.tail }
  match s.outcomes.head?.join, matchInt checked s.args with
  | none, some option => modifyOptions fun o => { o with bugonCount := option }
  | _, _              => Code.halt

-- The switch for a word that is not empty. The case option_readonly has no break.
def parseWord (checked : Bool) (word : List Char) : OptionCode Unit := do
  let s ← Code.get
  let (token, args) := matchToken word s.args
  Code.modify fun s => { s with args }
  match token with
  | .nojournal  => modifyOptions (·.clearOption mountSnapshot)
  | .novercheck => modifyOptions (·.clearOption mountVercheck)
  | .btreecheck => modifyOptions (·.setOption mountBtreeCheck)
  | .readonly   => do
    modifyOptions (·.setReadonly)
    setCount checked
  | .count      => setCount checked
  | .error      => Code.fail .einval

def parseWords (checked : Bool) : List (List Char) → OptionCode Unit
  | []            => pure ()
  | word :: words => do
    if word = [] then pure () else parseWord checked word
    parseWords checked words

-- emmcfs_parse_options; strsep goes through the pieces between the commas.
def parseOptions (checked : Bool) (input : Option (List Char)) : OptionCode Unit := do
  modifyOptions (·.setOption mountSnapshot)
  modifyOptions (·.setOption mountVercheck)
  match input with
  | none       => pure ()
  | some input => parseWords checked (input.splitOn ',')

end OptionParser

-- The text of an unsigned int.
structure Numeral where
  text  : List Char
  value : Nat
  of_eq : unsignedInt text = some value
  deriving DecidableEq

def Numeral.read (text : List Char) : Option Numeral :=
  match h : unsignedInt text with
  | none       => none
  | some value => some ⟨text, value, h⟩

-- The words that the options can have.
inductive MountWord
  | nojournal | novercheck | btreecheck | ro
  | count (n : Numeral)
  deriving DecidableEq

namespace MountWord

-- Each word changes its own setting.
def apply : MountWord → MountOptions → MountOptions
  | nojournal, o  => o.clearOption mountSnapshot
  | novercheck, o => o.clearOption mountVercheck
  | btreecheck, o => o.setOption mountBtreeCheck
  | ro, o         => o.setReadonly
  | count n, o    => { o with bugonCount := intOf n.value }

def IsCount : MountWord → Prop
  | count _ => True
  | _       => False

-- The words for which match_int is called.
def Calls : MountWord → Bool
  | ro | count _ => true
  | _            => false

def read (word : List Char) : Option MountWord :=
  if word = ['n', 'o', 'j', 'o', 'u', 'r', 'n', 'a', 'l'] then some nojournal
  else if word = ['n', 'o', 'v', 'e', 'r', 'c', 'h', 'e', 'c', 'k'] then some novercheck
  else if word = ['b', 't', 'r', 'e', 'e', 'c', 'h', 'e', 'c', 'k'] then some btreecheck
  else if word = ['r', 'o'] then some ro
  else if ['c', 'o', 'u', 'n', 't', '='] <+: word then (Numeral.read (word.drop 6)).map count
  else none

end MountWord

-- The words of an option string that are not empty.
def optionWords (input : Option (List Char)) : List (List Char) :=
  (input.elim [] (·.splitOn ',')).filter (· ≠ [])

-- The words up to the first one that is no option.
def acceptedWords (input : Option (List Char)) : List MountWord :=
  ((optionWords input).map MountWord.read).takeWhile (·.isSome) |>.reduceOption

-- There is a `ro` with no count before it.
def BareRo (words : List MountWord) : Prop :=
  ∃ before behind, words = before ++ .ro :: behind ∧ ∀ w ∈ before, ¬w.IsCount

namespace OptionParser

-- What emmcfs_parse_options is for: -EINVAL if some word is no option, and the words one after the
-- other if all are.
def ParsesAsRead (checked : Bool) (input : Option (List Char)) (s : OptionParser) : Prop :=
  let words := (optionWords input).mapM MountWord.read
  let options := (s.options.setOption mountSnapshot).setOption mountVercheck
  Code.wp (parseOptions checked input)
    (fun _ s' => words.map (·.foldl (fun o w => w.apply o) options) = some s'.options)
    (fun e _ => e = .einval ∧ words = none) False s

instance : Decidable (ParsesAsRead checked input s) :=
  inferInstanceAs (Decidable (Code.wp ..))

end OptionParser

end Emmcfs
