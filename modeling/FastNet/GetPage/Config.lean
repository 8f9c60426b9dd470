import FastNet.Foundation.Decimal
import FastNet.Foundation.Execution

/-! # The configuration

`load_config` over the contents of the env file and the process environment. A field
of the result holds the text that was effective for it: the variable if it is set,
else the last line of the file for its key, else what the field was before.
-/
namespace FastNet.GetPage
open Execution Decimal

/-- The static members of the class. -/
structure Config where
  host : List Char
  port : UInt16
  numRequests : UInt64
  loggingLevel : List Char
  pageCount : UInt64
  clientThreads : UInt64
  deriving DecidableEq

namespace Config

/-- What leaves `load_config`: the exceptions of `stoul` or its own. -/
inductive Failure
  | parse (e : ParseError)
  | runtimeError (what : String)
  deriving DecidableEq

inductive Key
  | host
  | port
  | numRequests
  | loggingLevel
  | pageCount
  | clientThreads
  deriving DecidableEq

/-- The keys in the order in which they are compared and looked up. -/
def Key.all : List Key := [.host,.port,.numRequests,.loggingLevel,.pageCount,.clientThreads]

/-- The name of a key in the file and in the environment. -/
def Key.name : Key → List Char
  | .host => ['H','O','S','T']
  | .port => ['P','O','R','T']
  | .numRequests => ['N','U','M','_','R','E','Q','U','E','S','T','S']
  | .loggingLevel => ['L','O','G','G','I','N','G','_','L','E','V','E','L']
  | .pageCount => ['P','A','G','E','_','C','O','U','N','T']
  | .clientThreads => ['C','L','I','E','N','T','_','T','H','R','E','A','D','S']

def stoulText (text : List Char) : Except Failure UInt64 :=
  match stoul text with
  | .ok v => .ok v
  | .error e => .error (.parse e)

/-- Set the member of a key from a text; the port is cast to 16 bits. -/
def assign (c : Config) (key : Key) (value : List Char) : Except Failure Config :=
  match key with
  | .host => .ok { c with host := value }
  | .port => (stoulText value).map (fun v => { c with port := v.toUInt16 })
  | .numRequests => (stoulText value).map (fun v => { c with numRequests := v })
  | .loggingLevel => .ok { c with loggingLevel := value }
  | .pageCount => (stoulText value).map (fun v => { c with pageCount := v })
  | .clientThreads => (stoulText value).map (fun v => { c with clientThreads := v })

/-- Blanks other than spaces stay. -/
def trim (str : List Char) : List Char :=
  ((str.dropWhile (· = ' ')).reverse.dropWhile (· = ' ')).reverse

/-- The key and the value of a line that has a known key; a line without `=` is
passed over, a line with an unknown key is logged. -/
def entry (line : List Char) : Option (Key × List Char) :=
  if '=' ∈ line then
    (Key.all.find? (fun key => key.name = trim (line.takeWhile (· ≠ '=')))).map
      (fun key => (key,trim ((line.dropWhile (· ≠ '=')).drop 1)))
  else none

def parseEnvLine (c : Config) (line : List Char) : Except Failure Config :=
  match entry line with
  | some (key,value) => c.assign key value
  | none => .ok c

/-- The lines that repeated calls of `getline` return. -/
def getlines : List Char → List (List Char)
  | [] => []
  | ch :: rest =>
    if ch = '\n' then [] :: getlines rest
    else
      match getlines rest with
      | [] => [[ch]]
      | line :: lines => (ch :: line) :: lines

/-- The process environment. -/
abbrev Environment := List Char → Option (List Char)

def getEnvVar (env : Environment) (key : Key) (defaultValue : List Char) : List Char :=
  (env key.name).getD defaultValue

/-- A member as a text, by `to_string` where it is a number. -/
def text (c : Config) : Key → List Char
  | .host => c.host
  | .port => toText c.port.toNat
  | .numRequests => toText c.numRequests.toNat
  | .loggingLevel => c.loggingLevel
  | .pageCount => toText c.pageCount.toNat
  | .clientThreads => toText c.clientThreads.toNat

/-- The assignment to one member after the file is read. -/
def resolve (env : Environment) (c : Config) (key : Key) : Except Failure Config :=
  c.assign key (getEnvVar env key (c.text key))

/-- The lines of a file that could be opened. -/
def fileLines (file : Option (List Char)) : List (List Char) := (file.map getlines).getD []

/-- `load_config` called with these members; the logging level it sets in the logger
is left out. -/
def loadConfig (c : Config) (file : Option (List Char)) (env : Environment) :
    Except Failure Config := do
  let c ← execute parseEnvLine c (fileLines file)
  let c ← execute (resolve env) c Key.all
  if c.port = 0 ∨ c.numRequests = 0 then throw (.runtimeError "Invalid configuration values.")
  else return c

/-- The members before the first call. -/
def initial : Config where
  host := ['l','o','c','a','l','h','o','s','t']
  port := 8888
  numRequests := 10
  loggingLevel := ['D','E','B','U','G']
  pageCount := 1024
  clientThreads := 4

/-- The value of the last line for a key. -/
def lastValue (lines : List (List Char)) (key : Key) : Option (List Char) :=
  ((lines.filterMap entry).filter (fun e => e.1 = key)).getLast?.map Prod.snd

/-- The text that decides a member. -/
def effectiveText (c : Config) (file : Option (List Char)) (env : Environment) (key : Key) :
    List Char :=
  getEnvVar env key ((lastValue (fileLines file) key).getD (c.text key))

/-- Assigning the text changes nothing. -/
def Holds (c : Config) (key : Key) (value : List Char) : Prop := c.assign key value = .ok c

variable {c c' : Config} {key key' : Key} {value value' : List Char}

/-- Each key has a member of its own. -/
theorem assign_holds (h : c.assign key value = .ok c') : c'.Holds key value := by
  cases key with
  | host =>
    cases h
    rfl
  | loggingLevel =>
    cases h
    rfl
  | port =>
    obtain ⟨v,hv,rfl⟩ := map_ok.mp h
    exact map_ok.mpr ⟨v,hv,rfl⟩
  | numRequests =>
    obtain ⟨v,hv,rfl⟩ := map_ok.mp h
    exact map_ok.mpr ⟨v,hv,rfl⟩
  | pageCount =>
    obtain ⟨v,hv,rfl⟩ := map_ok.mp h
    exact map_ok.mpr ⟨v,hv,rfl⟩
  | clientThreads =>
    obtain ⟨v,hv,rfl⟩ := map_ok.mp h
    exact map_ok.mpr ⟨v,hv,rfl⟩

theorem holds_iff : c.Holds key value ↔
    match key with
    | .host => c.host = value
    | .loggingLevel => c.loggingLevel = value
    | .port => ∃ v, stoulText value = .ok v ∧ v.toUInt16 = c.port
    | .numRequests => stoulText value = .ok c.numRequests
    | .pageCount => stoulText value = .ok c.pageCount
    | .clientThreads => stoulText value = .ok c.clientThreads := by
  unfold Holds assign
  rcases c with ⟨host,port,numRequests,loggingLevel,pageCount,clientThreads⟩
  cases key with
  | host => simp [eq_comm]
  | loggingLevel => simp [eq_comm]
  | port => simp [map_ok]
  | numRequests => simp [map_ok]
  | pageCount => simp [map_ok]
  | clientThreads => simp [map_ok]

theorem assign_other (h : c.assign key value = .ok c') (hne : key' ≠ key)
    (hv : c.Holds key' value') : c'.Holds key' value' := by
  rw [holds_iff] at hv ⊢
  cases key with
  | host =>
    cases h
    cases key' <;> first | exact hv | exact (hne rfl).elim
  | loggingLevel =>
    cases h
    cases key' <;> first | exact hv | exact (hne rfl).elim
  | port =>
    obtain ⟨v,-,rfl⟩ := map_ok.mp h
    cases key' <;> first | exact hv | exact (hne rfl).elim
  | numRequests =>
    obtain ⟨v,-,rfl⟩ := map_ok.mp h
    cases key' <;> first | exact hv | exact (hne rfl).elim
  | pageCount =>
    obtain ⟨v,-,rfl⟩ := map_ok.mp h
    cases key' <;> first | exact hv | exact (hne rfl).elim
  | clientThreads =>
    obtain ⟨v,-,rfl⟩ := map_ok.mp h
    cases key' <;> first | exact hv | exact (hne rfl).elim

theorem stoulText_toText (v : UInt64) : stoulText (toText v.toNat) = .ok v := by
  rw [stoulText,stoul_toText]

theorem holds_text (c : Config) (key : Key) : c.Holds key (c.text key) := by
  rw [holds_iff]
  cases key with
  | host => rfl
  | loggingLevel => rfl
  | port =>
    have h := stoulText_toText c.port.toUInt64
    rw [UInt16.toNat_toUInt64] at h
    exact ⟨_,h,UInt16.toUInt16_toUInt64 _⟩
  | numRequests => exact stoulText_toText _
  | pageCount => exact stoulText_toText _
  | clientThreads => exact stoulText_toText _

theorem lastValue_concat (lines : List (List Char)) (line : List Char) (key : Key) :
    lastValue (lines ++ [line]) key =
      match entry line with
      | some (k,value) => if k = key then some value else lastValue lines key
      | none => lastValue lines key := by
  cases h : entry line with
  | none => simp [lastValue,h]
  | some e =>
    by_cases hk : e.1 = key
    · simp [lastValue,h,hk]
    · simp [lastValue,h,hk]

/-- After the lines of the file each member holds the last value for its key. -/
theorem file_holds {lines : List (List Char)} (h : execute parseEnvLine c lines = .ok c')
    (key : Key) : c'.Holds key ((lastValue lines key).getD (c.text key)) := by
  refine execute_induction (P := fun lines c' =>
    ∀ key, c'.Holds key ((lastValue lines key).getD (c.text key))) (holds_text c) ?_ h key
  intro lines d line d' _ ih hline key
  rw [lastValue_concat]
  unfold parseEnvLine at hline
  cases hentry : entry line with
  | none =>
    rw [hentry] at hline
    cases hline
    exact ih key
  | some e =>
    rw [hentry] at hline
    obtain ⟨k,value⟩ := e
    by_cases hk : k = key
    · subst hk
      simp only [if_true,Option.getD_some]
      exact assign_holds hline
    · simp only [if_neg hk]
      exact assign_other hline (Ne.symm hk) (ih key)

/-- A member that is not in the environment is written and read again; the others
take the value of the variable. -/
theorem resolve_holds {env : Environment} (h : c.resolve env key = .ok c') {values : Key → List Char}
    (hc : ∀ key, c.Holds key (values key)) (key' : Key) :
    c'.Holds key' (if key' = key then getEnvVar env key (values key) else values key') := by
  unfold resolve getEnvVar at h
  unfold getEnvVar
  cases henv : env key.name with
  | none =>
    rw [henv,Option.getD_none,holds_text c key] at h
    cases h
    by_cases hk : key' = key
    · rw [if_pos hk,hk]
      exact hc key
    · rw [if_neg hk]
      exact hc key'
  | some value =>
    rw [henv,Option.getD_some] at h
    by_cases hk : key' = key
    · rw [if_pos hk,hk]
      exact assign_holds h
    · rw [if_neg hk]
      exact assign_other h hk (hc key')

theorem resolveAll_holds {env : Environment} {keys : List Key}
    (h : execute (resolve env) c keys = .ok c') {values : Key → List Char}
    (hc : ∀ key, c.Holds key (values key)) (key : Key) :
    c'.Holds key (if key ∈ keys then getEnvVar env key (values key) else values key) := by
  refine execute_induction (P := fun keys c' => ∀ key, c'.Holds key
    (if key ∈ keys then getEnvVar env key (values key) else values key)) ?_ ?_ h key
  · intro key
    rw [if_neg List.not_mem_nil]
    exact hc key
  · intro keys d k d' _ ih hd key
    have hstep := resolve_holds hd ih key
    by_cases hk : key = k
    · subst hk
      rw [if_pos (by simp)]
      rw [if_pos rfl] at hstep
      split at hstep
      · unfold getEnvVar at hstep ⊢
        cases henv : env key.name with
        | none => simpa only [henv,Option.getD_none] using hstep
        | some value => simpa only [henv,Option.getD_some] using hstep
      · exact hstep
    · rw [if_neg hk] at hstep
      have hiff : key ∈ keys ++ [k] ↔ key ∈ keys := by simp [hk]
      simpa only [hiff] using hstep

/-- Each member of a loaded configuration holds its effective text. -/
theorem loadConfig_holds {file : Option (List Char)} {env : Environment}
    (h : c.loadConfig file env = .ok c') :
    (∀ key, c'.Holds key (c.effectiveText file env key)) ∧ c'.port ≠ 0 ∧ c'.numRequests ≠ 0 := by
  obtain ⟨d,hd,h⟩ := bind_ok.mp h
  obtain ⟨d',hd',h⟩ := bind_ok.mp h
  split at h
  · cases h
  · rename_i hcheck
    cases h
    rw [not_or] at hcheck
    refine ⟨?_,hcheck⟩
    intro key
    have hall := resolveAll_holds hd' (file_holds hd) key
    rwa [if_pos (by cases key <;> decide)] at hall

theorem stoulText_ok {text : List Char} {v : UInt64} (h : stoulText text = .ok v) :
    stoul text = .ok v := by
  unfold stoulText at h
  split at h
  · rename_i hv
    cases h
    exact hv
  · cases h

theorem toNat_of_holds {text : List Char} {v : UInt64} (hd : IsDecimal text)
    (h : stoulText text = .ok v) : v.toNat = Decimal.value text :=
  toNat_stoul hd (stoulText_ok h)

section Validation
variable {file : Option (List Char)} {env : Environment}

/-- The keys whose members are numbers. -/
def Key.numeric : List Key := [.port,.numRequests,.pageCount,.clientThreads]

variable (c file env) in
/-- The texts are numbers, the port is the number of its text, and nothing that a
program divides by is zero. -/
structure Validated (c' : Config) : Prop where
  decimal : ∀ key ∈ Key.numeric, IsDecimal (c.effectiveText file env key)
  port : c'.port.toNat = Decimal.value (c.effectiveText file env .port)
  port_range : 1 ≤ c'.port.toNat ∧ c'.port.toNat ≤ 65535
  numRequests : 1 ≤ c'.numRequests.toNat
  pageCount : 1 ≤ c'.pageCount.toNat
  clientThreads : 1 ≤ c'.clientThreads.toNat

theorem port_toNat (h : c.loadConfig file env = .ok c')
    (hd : IsDecimal (c.effectiveText file env .port)) :
    c'.port.toNat = Decimal.value (c.effectiveText file env .port) % 65536 := by
  obtain ⟨v,hv,hport⟩ := holds_iff.mp ((loadConfig_holds h).1 .port)
  rw [← hport,← toNat_of_holds hd hv]
  rfl

/-- The final test looks at the port after the cast and at the number of requests;
whether the rest is valid is up to the texts. -/
theorem validated_iff (c c' : Config) (file : Option (List Char)) (env : Environment)
    (h : c.loadConfig file env = .ok c') :
    Validated c file env c' ↔
      (∀ key ∈ Key.numeric, IsDecimal (c.effectiveText file env key)) ∧
        Decimal.value (c.effectiveText file env .port) ≤ 65535 ∧
        Decimal.value (c.effectiveText file env .pageCount) ≠ 0 ∧
        Decimal.value (c.effectiveText file env .clientThreads) ≠ 0 := by
  obtain ⟨hholds,hport,hnum⟩ := loadConfig_holds h
  have hport0 : c'.port.toNat ≠ 0 := fun h0 => hport (UInt16.toNat_inj.mp h0)
  have hnum0 : c'.numRequests.toNat ≠ 0 := fun h0 => hnum (UInt64.toNat_inj.mp h0)
  have hpages := holds_iff.mp (hholds .pageCount)
  have hthreads := holds_iff.mp (hholds .clientThreads)
  constructor
  · intro hv
    have hpage := toNat_of_holds (hv.decimal .pageCount (by decide)) hpages
    have hthread := toNat_of_holds (hv.decimal .clientThreads (by decide)) hthreads
    have hp := hv.pageCount
    have ht := hv.clientThreads
    exact ⟨hv.decimal,hv.port ▸ hv.port_range.2,by omega,by omega⟩
  · rintro ⟨hdecimal,hle,hpage0,hthread0⟩
    have hpage := toNat_of_holds (hdecimal .pageCount (by decide)) hpages
    have hthread := toNat_of_holds (hdecimal .clientThreads (by decide)) hthreads
    have hp := port_toNat h (hdecimal .port (by decide))
    exact ⟨hdecimal,by omega,⟨by omega,by omega⟩,by omega,by omega,by omega⟩

/-- `PORT=9000` in the file, overridden by the environment for one other key. -/
theorem validated_override :
    let file := some ['P','O','R','T','=',' ','9','0','0','0','\n']
    let env : Environment := fun name => if name = Key.pageCount.name then some ['1','6'] else none
    ∃ c', initial.loadConfig file env = .ok c' ∧ Validated initial file env c' ∧
      c'.port = 9000 ∧ c'.pageCount = 16 := by
  intro file env
  have hrun : yields (initial.loadConfig file env) (fun c' => c'.port = 9000 && c'.pageCount = 16) =
      true := by decide +kernel
  obtain ⟨c',h,htest⟩ := exists_of_yields hrun
  simp only [Bool.and_eq_true,decide_eq_true_eq] at htest
  have hv := (validated_iff initial c' file env h).mpr (by decide +kernel)
  exact ⟨c',h,hv,htest.1,htest.2⟩

/-- `CLIENT_THREADS=0` and `PORT=65537` are accepted. -/
theorem validated_not_zero :
    let file := some (Key.clientThreads.name ++ ['=','0','\n'] ++ Key.port.name ++
      ['=','6','5','5','3','7'])
    ∃ c', initial.loadConfig file (fun _ => none) = .ok c' ∧
      c'.clientThreads = 0 ∧ c'.port = 1 ∧ ¬ Validated initial file (fun _ => none) c' := by
  intro file
  have hrun : yields (initial.loadConfig file (fun _ => none))
      (fun c' => c'.clientThreads = 0 && c'.port = 1) = true := by decide +kernel
  obtain ⟨c',h,htest⟩ := exists_of_yields hrun
  simp only [Bool.and_eq_true,decide_eq_true_eq] at htest
  refine ⟨c',h,htest.1,htest.2,?_⟩
  intro hv
  have hthreads := hv.clientThreads
  rw [htest.1] at hthreads
  exact absurd hthreads (by decide)

end Validation

end Config

end FastNet.GetPage
