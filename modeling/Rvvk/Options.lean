import Rvvk.Elf.Tables
import Rvvk.Mmap.Host

/-!
# Options

`parse_options` walks over the words of the command line, which end with a NULL, and
then over it into the environment behind. A pointer into these arrays is what lies from
it on.
-/

namespace Rvvk

def ascii (text : String) : List (BitVec 8) := text.toList.map fun c => BitVec.ofNat 8 c.toNat

structure Settings extends Setup where
  /-- `logoutf` is `printf`. -/
  debug : Bool

/-- How `parse_options` ends when it does not return 0. -/
inductive OptionsEnd
  /-- It returns 1, with the text in `errp`. -/
  | returned (info : List (BitVec 8))
  | exit (stdout : List (BitVec 8)) (status : BitVec 32)
  | signal (f : Fault)
  /-- An array is left. -/
  | overrun
deriving DecidableEq, Repr

/-! ## The C library -/

def isspace (c : BitVec 8) : Bool := c == 0x20 || (0x09 ≤ c && c ≤ 0x0d)

/-- The value of a digit or a letter; 36 for other bytes. -/
def digitValue (c : BitVec 8) : Nat :=
  if 0x30 ≤ c ∧ c ≤ 0x39 then c.toNat - 0x30
  else if 0x61 ≤ c ∧ c ≤ 0x7a then c.toNat - 0x61 + 10
  else if 0x41 ≤ c ∧ c ≤ 0x5a then c.toNat - 0x41 + 10
  else 36

/-- `strtoul (s, NULL, 0)`: the base is in the number's prefix, and a number that does not
fit is `ULONG_MAX`. -/
def strtoul (s : CString) : Word :=
  let bytes := s.bytes.dropWhile isspace
  let negative := bytes.head? == some 0x2d
  let bytes := if negative || bytes.head? == some 0x2b then bytes.tail else bytes
  let hexadecimal := bytes.head? == some 0x30 &&
    (bytes[1]? == some 0x78 || bytes[1]? == some 0x58)
  let base := if hexadecimal then 16 else if bytes.head? == some 0x30 then 8 else 10
  let digits := (if hexadecimal then bytes.drop 2 else bytes).takeWhile fun c => digitValue c < base
  let value := digits.foldl (fun n c => n * base + digitValue c) 0
  if 2 ^ 64 ≤ value then -1
  else if negative then -BitVec.ofNat 64 value
  else BitVec.ofNat 64 value

/-- `strdupf`, given the text that it formats into an array of 256 bytes and then copies to
what `malloc` returns. -/
def strdupf (malloc : Bool) (text : List (BitVec 8)) : Except OptionsEnd (List (BitVec 8)) :=
  if text.length + 1 ≤ 256 then
    if malloc then .ok text else .error (.signal .sigsegv)
  else .error .overrun

/-! ## The table -/

inductive HandleOpt
  | help
  | guestBase
  | guestStack
  | debug
deriving DecidableEq, Repr

structure OptionT where
  name : List (BitVec 8)
  aliasName : Option (List (BitVec 8))
  needArg : Bool
  handleOpt : Option HandleOpt
  desc : String
deriving DecidableEq, Repr

def optTable : List OptionT :=
  [⟨ascii "--help", some (ascii "-h"), false, some .help, "display this message."⟩,
   ⟨ascii "--address", some (ascii "-B"), true, some .guestBase, "set guest base address."⟩,
   ⟨ascii "--stack", some (ascii "-s"), true, some .guestStack, "set guest stack size."⟩,
   ⟨ascii "--debug", some (ascii "-d"), false, some .debug, "display debug logs."⟩]

/-- A line of `print_usage`. -/
def OptionT.usage (o : OptionT) : List (BitVec 8) :=
  ascii "\t" ++ o.aliasName.getD (ascii "  ") ++ ascii (if o.aliasName.isSome then "," else " ") ++
    ascii " " ++ o.name ++ ascii "\t" ++ ascii o.desc ++ ascii "\n"

def printUsage : List (BitVec 8) :=
  ascii "Usage:\n\trvvk [options] prog [args]\nOptions:\n" ++ optTable.flatMap OptionT.usage

def findOption (name : CString) : Option OptionT :=
  optTable.find? fun o => name.bytes == o.name || some name.bytes == o.aliasName

def handleHelp : Except OptionsEnd Settings := .error (.exit printUsage 0)

/-- `strtoul` reads the string: a null pointer is a host signal. -/
def handleGuestBase (arg : Option CString) (g : Settings) : Except OptionsEnd Settings :=
  match arg with
  | some arg => .ok { g with guestBase := strtoul arg }
  | none => .error (.signal .sigsegv)

def handleGuestStack (arg : Option CString) (g : Settings) : Except OptionsEnd Settings :=
  match arg with
  | some arg => .ok { g with guestStackSize := strtoul arg }
  | none => .error (.signal .sigsegv)

def handleDebug (g : Settings) : Except OptionsEnd Settings := .ok { g with debug := true }

def OptionT.handle (o : OptionT) (arg : Option CString) (g : Settings) :
    Except OptionsEnd Settings :=
  match o.handleOpt with
  | none => .ok g
  | some .help => handleHelp
  | some .guestBase => handleGuestBase arg g
  | some .guestStack => handleGuestStack arg g
  | some .debug => handleDebug g

/-! ## The walk -/

/-- An array of strings that ends with NULL. -/
def nullTerminated (words : List CString) : List (Option CString) := words.map some ++ [none]

def CString.isOption (word : CString) : Bool := word.bytes.head? == some 0x2d

/-- The loop over the options; `opts` stays at the word that ends it. -/
def skipOptions (malloc : Bool) (g : Settings) :
    List (Option CString) → Except OptionsEnd (Settings × List (Option CString))
  | [] => .error .overrun
  | none :: rest => .ok (g, none :: rest)
  | some opt :: rest =>
      if opt.isOption then
        match findOption opt with
        | none => do
            let info ← strdupf malloc (ascii "Invalid option: " ++ opt.bytes ++ ascii ".")
            .error (.returned info)
        | some o =>
            if o.needArg then
              match rest with
              | [] => .error .overrun
              | arg :: rest => do
                  let g ← o.handle arg g
                  skipOptions malloc g rest
            else do
              let g ← o.handle none g
              skipOptions malloc g rest
      else .ok (g, some opt :: rest)

/-- The loop over the rest of the words, and past their NULL. -/
def skipWords : List (Option CString) → Except OptionsEnd (List (Option CString))
  | [] => .error .overrun
  | none :: rest => .ok rest
  | some _ :: rest => skipWords rest

/-- What `parse_options` sets. -/
structure Parsed where
  settings : Settings
  progPath : CString
  progArgv : List (Option CString)
  progEnvp : List (Option CString)

def parseOptions (malloc : Bool) (g : Settings) (opts : List (Option CString)) :
    Except OptionsEnd Parsed := do
  let (g, opts) ← skipOptions malloc g opts
  match opts with
  | [] => .error .overrun
  | none :: _ => .error (.returned (ascii "No specified program to execute."))
  | some prog :: rest => do
      let envp ← skipWords rest
      .ok ⟨g, prog, some prog :: rest, envp⟩

/-! ## What a command line stands for -/

/-- Words that are options and arguments of options, none of them `--help`, with the
settings before and after. -/
inductive OptionWords : Settings → List CString → Settings → Prop
  | nil (g : Settings) : OptionWords g [] g
  | alone {g g₁ g₂ : Settings} {opt : CString} {o : OptionT} {words : List CString}
      (ho : findOption opt = some o) (hn : o.needArg = false) (hh : o.handle none g = .ok g₁)
      (hw : OptionWords g₁ words g₂) : OptionWords g (opt :: words) g₂
  | withArg {g g₁ g₂ : Settings} {opt arg : CString} {o : OptionT} {words : List CString}
      (ho : findOption opt = some o) (hn : o.needArg = true) (hh : o.handle (some arg) g = .ok g₁)
      (hw : OptionWords g₁ words g₂) : OptionWords g (opt :: arg :: words) g₂

/-- The arrays `argv` and `envp`, one behind the other. -/
def pointers (argv envp : List CString) : List (Option CString) :=
  nullTerminated argv ++ nullTerminated envp

/-- The program is the first word that is neither an option nor the argument of one. -/
structure Splits (g : Settings) (argv envp front rest : List CString) (prog : CString)
    (p : Parsed) : Prop where
  argv : argv = front ++ prog :: rest
  front : OptionWords g front p.settings
  notOption : prog.isOption = false
  progPath : p.progPath = prog
  progArgv : p.progArgv = pointers (prog :: rest) envp
  progEnvp : p.progEnvp = nullTerminated envp

/-- How `parse_options` ends on a command line. -/
inductive Parses (g : Settings) (argv envp : List CString) : Except OptionsEnd Parsed → Prop
  | help {front rest : List CString} {opt : CString} {g' : Settings}
      (ha : argv = front ++ opt :: rest) (hw : OptionWords g front g')
      (ho : opt.bytes = ascii "--help" ∨ opt.bytes = ascii "-h") :
      Parses g argv envp (.error (.exit printUsage 0))
  | invalid {front rest : List CString} {opt : CString} {g' : Settings}
      (ha : argv = front ++ opt :: rest) (hw : OptionWords g front g')
      (hd : opt.isOption = true) (ho : findOption opt = none) :
      Parses g argv envp
        (.error (.returned (ascii "Invalid option: " ++ opt.bytes ++ ascii ".")))
  | noProgram {g' : Settings} (hw : OptionWords g argv g') :
      Parses g argv envp (.error (.returned (ascii "No specified program to execute.")))
  | program {front rest : List CString} {prog : CString} {p : Parsed}
      (hs : Splits g argv envp front rest prog p) : Parses g argv envp (.ok p)

/-- The command lines on which something is left unchecked: the last word is an option
that needs an argument, or the message about an invalid option does not fit its array
or finds no memory. -/
inductive Unchecked (malloc : Bool) (g : Settings) (argv : List CString) : Prop
  | noArg {front : List CString} {opt : CString} {o : OptionT} {g' : Settings}
      (ha : argv = front ++ [opt]) (hw : OptionWords g front g') (ho : findOption opt = some o)
      (hn : o.needArg = true)
  | message {front rest : List CString} {opt : CString} {g' : Settings}
      (ha : argv = front ++ opt :: rest) (hw : OptionWords g front g')
      (hd : opt.isOption = true) (ho : findOption opt = none)
      (hm : 238 < opt.bytes.length ∨ malloc = false)

/-! ## The table's options -/

variable {malloc : Bool} {g g' : Settings} {opt : CString} {o : OptionT}

theorem mem_optTable (ho : findOption opt = some o) : o ∈ optTable :=
  List.mem_of_find?_eq_some ho

/-- Only `--help` and `--debug` need no argument. -/
theorem findOption_alone (ho : findOption opt = some o) (hn : o.needArg = false) :
    (opt.bytes = ascii "--help" ∨ opt.bytes = ascii "-h") ∧ o.handle none g = handleHelp ∨
      o.handle none g = handleDebug g := by
  have hname : opt.bytes = o.name ∨ some opt.bytes = o.aliasName := by
    simpa using List.find?_some ho
  have hmem := mem_optTable ho
  simp only [optTable, List.mem_cons, List.not_mem_nil, or_false] at hmem
  rcases hmem with rfl | rfl | rfl | rfl
  · refine .inl ⟨hname.imp_right fun h => Option.some.inj h, rfl⟩
  · cases hn
  · cases hn
  · exact .inr rfl

theorem handle_withArg (ho : findOption opt = some o) (hn : o.needArg = true) (arg : CString) :
    ∃ g', o.handle (some arg) g = .ok g' := by
  have hmem := mem_optTable ho
  simp only [optTable, List.mem_cons, List.not_mem_nil, or_false] at hmem
  rcases hmem with rfl | rfl | rfl | rfl
  · cases hn
  · exact ⟨_, rfl⟩
  · exact ⟨_, rfl⟩
  · cases hn

/-- A null pointer in the place of an argument is a host signal. -/
theorem handle_noArg (ho : findOption opt = some o) (hn : o.needArg = true) :
    o.handle none g = .error (.signal .sigsegv) := by
  have hmem := mem_optTable ho
  simp only [optTable, List.mem_cons, List.not_mem_nil, or_false] at hmem
  rcases hmem with rfl | rfl | rfl | rfl
  · cases hn
  · rfl
  · rfl
  · cases hn

theorem isOption_of_findOption (ho : findOption opt = some o) : opt.isOption = true := by
  have hname : opt.bytes = o.name ∨ some opt.bytes = o.aliasName := by
    simpa using List.find?_some ho
  have hdash : ∀ o ∈ optTable, o.name.head? = some 0x2d ∧
      ∀ short, o.aliasName = some short → short.head? = some 0x2d := by decide
  obtain ⟨hlong, hshort⟩ := hdash o (mem_optTable ho)
  unfold CString.isOption
  rcases hname with h | h
  · rw [h, hlong]
    rfl
  · rw [hshort _ h.symm]
    rfl

/-! ## Steps of the walk -/

theorem skipOptions_alone (ho : findOption opt = some o) (hn : o.needArg = false)
    (rest : List (Option CString)) :
    skipOptions malloc g (some opt :: rest) =
      o.handle none g >>= fun g => skipOptions malloc g rest := by
  rw [skipOptions, if_pos (isOption_of_findOption ho), ho]
  simp [hn]

theorem skipOptions_withArg (ho : findOption opt = some o) (hn : o.needArg = true)
    (arg : Option CString) (rest : List (Option CString)) :
    skipOptions malloc g (some opt :: arg :: rest) =
      o.handle arg g >>= fun g => skipOptions malloc g rest := by
  rw [skipOptions, if_pos (isOption_of_findOption ho), ho]
  simp [hn]

theorem skipOptions_invalid (hd : opt.isOption = true) (ho : findOption opt = none)
    (rest : List (Option CString)) :
    skipOptions malloc g (some opt :: rest) =
      strdupf malloc (ascii "Invalid option: " ++ opt.bytes ++ ascii ".") >>= fun info =>
        .error (.returned info) := by
  rw [skipOptions, if_pos hd, ho]

theorem skipOptions_word (hd : opt.isOption = false) (rest : List (Option CString)) :
    skipOptions malloc g (some opt :: rest) = .ok (g, some opt :: rest) := by
  rw [skipOptions, if_neg (by simp [hd])]

theorem skipOptions_front {front : List CString} (hw : OptionWords g front g')
    (rest : List (Option CString)) :
    skipOptions malloc g (front.map some ++ rest) = skipOptions malloc g' rest := by
  induction hw with
  | nil g => rfl
  | alone ho hn hh _ ih =>
      rw [List.map_cons, List.cons_append, skipOptions_alone ho hn, hh]
      exact ih
  | withArg ho hn hh _ ih =>
      rw [List.map_cons, List.map_cons, List.cons_append, List.cons_append,
        skipOptions_withArg ho hn, hh]
      exact ih

theorem skipWords_argv (words envp : List CString) :
    skipWords (pointers words envp) = .ok (nullTerminated envp) := by
  induction words with
  | nil => rfl
  | cons word words ih => exact ih

inductive WalkStop : List CString → Prop
  | last : WalkStop []
  | word {word : CString} {rest : List CString} (hd : word.isOption = false) :
      WalkStop (word :: rest)
  | help {opt : CString} {rest : List CString}
      (ho : opt.bytes = ascii "--help" ∨ opt.bytes = ascii "-h") : WalkStop (opt :: rest)
  | invalid {opt : CString} {rest : List CString} (hd : opt.isOption = true)
      (ho : findOption opt = none) : WalkStop (opt :: rest)
  | noArg {opt : CString} {o : OptionT} (ho : findOption opt = some o) (hn : o.needArg = true) :
      WalkStop [opt]

/-- Every command line is options with their arguments, and what stops the walk. -/
theorem optionWords_walkStop (g : Settings) (argv : List CString) :
    ∃ front rest g', argv = front ++ rest ∧ OptionWords g front g' ∧ WalkStop rest := by
  match argv with
  | [] => exact ⟨[], [], g, rfl, .nil g, .last⟩
  | opt :: words =>
      by_cases hd : opt.isOption = true
      · cases ho : findOption opt with
        | none => exact ⟨[], opt :: words, g, rfl, .nil g, .invalid hd ho⟩
        | some o =>
            cases hn : o.needArg with
            | false =>
                rcases findOption_alone (g := g) ho hn with ⟨hhelp, _⟩ | hh
                · exact ⟨[], opt :: words, g, rfl, .nil g, .help hhelp⟩
                · obtain ⟨front, rest, g', ha, hw, hs⟩ :=
                    optionWords_walkStop { g with debug := true } words
                  exact ⟨opt :: front, rest, g', congrArg (opt :: ·) ha, .alone ho hn hh hw, hs⟩
            | true =>
                match words with
                | [] => exact ⟨[], [opt], g, rfl, .nil g, .noArg ho hn⟩
                | arg :: words =>
                    obtain ⟨g₁, hh⟩ := handle_withArg (g := g) ho hn arg
                    obtain ⟨front, rest, g', ha, hw, hs⟩ := optionWords_walkStop g₁ words
                    exact ⟨opt :: arg :: front, rest, g', congrArg (opt :: arg :: ·) ha,
                      .withArg ho hn hh hw, hs⟩
      · exact ⟨[], opt :: words, g, rfl, .nil g, .word (by simpa using hd)⟩

/-! ## How it ends -/

variable {front rest envp : List CString}

theorem parseOptions_front (hw : OptionWords g front g') :
    parseOptions malloc g (pointers (front ++ rest) envp) =
      parseOptions malloc g' (pointers rest envp) := by
  have happ : pointers (front ++ rest) envp = front.map some ++ pointers rest envp := by
    simp [pointers, nullTerminated]
  unfold parseOptions
  rw [happ, skipOptions_front hw]

theorem parseOptions_word {prog : CString} (hd : prog.isOption = false) :
    parseOptions malloc g (pointers (prog :: rest) envp) =
      .ok ⟨g, prog, pointers (prog :: rest) envp, nullTerminated envp⟩ := by
  have hskip : skipOptions malloc g (pointers (prog :: rest) envp) =
      .ok (g, some prog :: pointers rest envp) := skipOptions_word hd _
  have hwords := skipWords_argv rest envp
  unfold parseOptions
  rw [hskip]
  show (skipWords (pointers rest envp) >>= fun envp => _) = _
  rw [hwords]
  rfl

theorem parseOptions_help (ho : opt.bytes = ascii "--help" ∨ opt.bytes = ascii "-h") :
    parseOptions malloc g (pointers (opt :: rest) envp) = .error (.exit printUsage 0) := by
  have hfind : findOption opt = some
      ⟨ascii "--help", some (ascii "-h"), false, some .help, "display this message."⟩ := by
    unfold findOption
    rcases ho with h | h
    · rw [h]
      decide
    · rw [h]
      decide
  have hskip : skipOptions malloc g (pointers (opt :: rest) envp) = .error (.exit printUsage 0) :=
    skipOptions_alone hfind rfl _
  unfold parseOptions
  rw [hskip]
  rfl

theorem parseOptions_invalid (hd : opt.isOption = true) (ho : findOption opt = none) :
    parseOptions malloc g (pointers (opt :: rest) envp) =
      if opt.bytes.length ≤ 238 then
        if malloc then .error (.returned (ascii "Invalid option: " ++ opt.bytes ++ ascii "."))
        else .error (.signal .sigsegv)
      else .error .overrun := by
  have hskip : skipOptions malloc g (pointers (opt :: rest) envp) =
      strdupf malloc (ascii "Invalid option: " ++ opt.bytes ++ ascii ".") >>= fun info =>
        .error (.returned info) := skipOptions_invalid hd ho (pointers rest envp)
  have hlen : (ascii "Invalid option: " ++ opt.bytes ++ ascii ".").length + 1 ≤ 256 ↔
      opt.bytes.length ≤ 238 := by
    have htext : (ascii "Invalid option: ").length = 16 := by decide
    have hdot : (ascii ".").length = 1 := by decide
    rw [List.length_append, List.length_append, htext, hdot]
    omega
  unfold parseOptions
  rw [hskip]
  unfold strdupf
  simp only [hlen]
  split
  · cases malloc <;> rfl
  · rfl

/-- An option without its argument: the handler reads through the NULL that ends the
words, and the environment is not reached. -/
theorem parseOptions_noArg (ho : findOption opt = some o) (hn : o.needArg = true) :
    parseOptions malloc g (pointers [opt] envp) = .error (.signal .sigsegv) := by
  have hskip : skipOptions malloc g (pointers [opt] envp) = .error (.signal .sigsegv) := by
    rw [show pointers [opt] envp = some opt :: none :: nullTerminated envp from rfl,
      skipOptions_withArg ho hn, handle_noArg ho hn]
    rfl
  unfold parseOptions
  rw [hskip]
  rfl

/-- The program that is taken is the first word behind the options. -/
theorem splits_of_parseOptions {argv : List CString} {p : Parsed}
    (hp : parseOptions malloc g (pointers argv envp) = .ok p) :
    ∃ front rest prog, Splits g argv envp front rest prog p := by
  obtain ⟨front, rest, g', ha, hw, hs⟩ := optionWords_walkStop g argv
  rw [ha, parseOptions_front hw] at hp
  cases hs with
  | last => cases hp
  | word hd =>
      rw [parseOptions_word hd] at hp
      cases hp
      exact ⟨front, _, _, ha, hw, hd, rfl, rfl, rfl⟩
  | help ho =>
      rw [parseOptions_help ho] at hp
      cases hp
  | invalid hd ho =>
      rw [parseOptions_invalid hd ho] at hp
      split at hp
      · split at hp <;> cases hp
      · cases hp
  | noArg ho hn =>
      rw [parseOptions_noArg ho hn] at hp
      cases hp

/-- The options call `exit` for `--help` only. -/
theorem help_of_exit {argv : List CString} {out : List (BitVec 8)} {status : BitVec 32}
    (hp : parseOptions malloc g (pointers argv envp) = .error (.exit out status)) :
    ∃ front rest opt g', argv = front ++ opt :: rest ∧ OptionWords g front g' ∧
      (opt.bytes = ascii "--help" ∨ opt.bytes = ascii "-h") := by
  obtain ⟨front, rest, g', ha, hw, hs⟩ := optionWords_walkStop g argv
  rw [ha, parseOptions_front hw] at hp
  cases hs with
  | last => cases hp
  | word hd =>
      rw [parseOptions_word hd] at hp
      cases hp
  | help ho => exact ⟨front, _, _, g', ha, hw, ho⟩
  | invalid hd ho =>
      rw [parseOptions_invalid hd ho] at hp
      split at hp
      · split at hp <;> cases hp
      · cases hp
  | noArg ho hn =>
      rw [parseOptions_noArg ho hn] at hp
      cases hp

/-- Where something is left unchecked, the emulator is killed or leaves an array. -/
theorem parseOptions_unchecked {argv : List CString} (envp : List CString)
    (hu : Unchecked malloc g argv) :
    parseOptions malloc g (pointers argv envp) = .error (.signal .sigsegv) ∨
      parseOptions malloc g (pointers argv envp) = .error .overrun := by
  cases hu with
  | noArg ha hw ho hn =>
      rw [ha, parseOptions_front hw]
      exact .inl (parseOptions_noArg ho hn)
  | message ha hw hd ho hm =>
      rw [ha, parseOptions_front hw, parseOptions_invalid hd ho]
      split
      · rename_i hlen
        rw [hm.resolve_left (by omega)]
        exact .inl rfl
      · exact .inr rfl

/-- Where nothing is left unchecked, `parse_options` takes the options and the program
where they end, or ends as it does for `--help` or with an error. -/
theorem parseOptions_parses {argv : List CString} (envp : List CString)
    (hu : ¬ Unchecked malloc g argv) :
    Parses g argv envp (parseOptions malloc g (pointers argv envp)) := by
  obtain ⟨front, rest, g', ha, hw, hs⟩ := optionWords_walkStop g argv
  rw [ha, parseOptions_front hw, ← ha]
  cases hs with
  | last =>
      rw [List.append_nil] at ha
      exact .noProgram (ha ▸ hw)
  | word hd =>
      rw [parseOptions_word hd]
      exact .program ⟨ha, hw, hd, rfl, rfl, rfl⟩
  | help ho =>
      rw [parseOptions_help ho]
      exact .help ha hw ho
  | invalid hd ho =>
      have hm := fun hm => hu (.message ha hw hd ho hm)
      rw [parseOptions_invalid hd ho, if_pos (Nat.le_of_not_lt fun h => hm (.inl h)),
        if_pos (by simpa using fun h => hm (.inr h))]
      exact .invalid ha hw hd ho
  | noArg ho hn => exact absurd (.noArg ha hw ho hn) hu

def Settings.default : Settings := ⟨.default, false⟩

def CString.ofText (text : String) (h : 0 ∉ ascii text) : CString := ⟨ascii text, h⟩

/-- `-s 1 a` -/
def stackAndProgram : List CString :=
  [.ofText "-s" (by decide), .ofText "1" (by decide), .ofText "a" (by decide)]

theorem stackAndProgram_parses :
    Parses .default stackAndProgram []
      (parseOptions true .default (pointers stackAndProgram [])) := by
  refine parseOptions_parses [] fun hu => ?_
  have hok : (parseOptions true .default (pointers stackAndProgram [])).isOk = true := by
    decide +kernel
  rcases parseOptions_unchecked [] hu with h | h
  · rw [h] at hok
    cases hok
  · rw [h] at hok
    cases hok

def ReturnsOrSplits (g : Settings) (argv envp : List CString)
    (r : Except OptionsEnd Parsed) : Prop :=
  (∃ info, r = .error (.returned info)) ∨
    ∃ front rest prog p, Splits g argv envp front rest prog p ∧ r = .ok p

/-- `-h` ends the emulator, and so does `-s` in the last place, by a host signal. -/
theorem help_and_last_stack_end :
    ¬ ReturnsOrSplits .default [.ofText "-h" (by decide)] []
        (parseOptions true .default (pointers [.ofText "-h" (by decide)] [])) ∧
      ¬ ReturnsOrSplits .default [.ofText "-s" (by decide)] []
        (parseOptions true .default (pointers [.ofText "-s" (by decide)] [])) := by
  constructor
  · rw [parseOptions_help (.inr rfl)]
    rintro (⟨info, h⟩ | ⟨front, rest, prog, p, -, h⟩) <;> cases h
  · have hfind : findOption (.ofText "-s" (by decide)) = some
        ⟨ascii "--stack", some (ascii "-s"), true, some .guestStack, "set guest stack size."⟩ := by
      decide
    rw [parseOptions_noArg hfind rfl]
    rintro (⟨info, h⟩ | ⟨front, rest, prog, p, -, h⟩) <;> cases h

end Rvvk
