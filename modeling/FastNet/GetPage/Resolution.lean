import FastNet.GetPage.Config

/-! # The law of the configuration

Each member is decided by its environment variable, else by the last line of the
file with its key, else it keeps its value; the other keys and the order of the
lines do not matter. Loading the same file again changes nothing.
-/
namespace FastNet.GetPage
open Execution Decimal

namespace Config
variable {c c' d : Config} {key : Key} {value : List Char} {env : Environment}
  {lines : List (List Char)}

section Lines

/-- A line that has the key, up to spaces, before its first `=` and the value after it. -/
def Assigns (line : List Char) (key : Key) (value : List Char) : Prop :=
  ∃ before after, line = before ++ '=' :: after ∧ '=' ∉ before ∧ trim before = key.name ∧
    trim after = value

theorem find_key (text : List Char) :
    Key.all.find? (fun key => key.name = text) = some key ↔ key.name = text := by
  constructor
  · intro h
    have hkey := List.find?_some h
    exact of_decide_eq_true hkey
  · rintro rfl
    cases key <;> rfl

theorem entry_cut {before after : List Char} (hb : '=' ∉ before) :
    entry (before ++ '=' :: after) =
      (Key.all.find? (fun key => key.name = trim before)).map (fun key => (key,trim after)) := by
  have hall : ∀ ch ∈ before, decide (ch ≠ '=') = true := by
    intro ch hch
    exact decide_eq_true (fun heq => hb (heq ▸ hch))
  have htake : (before ++ '=' :: after).takeWhile (· ≠ '=') = before := by
    rw [List.takeWhile_append_of_pos hall]
    simp
  have hdrop : (before ++ '=' :: after).dropWhile (· ≠ '=') = '=' :: after := by
    rw [List.dropWhile_append_of_pos hall]
    simp
  rw [entry,if_pos (by simp),htake,hdrop]
  rfl

theorem entry_iff {line : List Char} : entry line = some (key,value) ↔ Assigns line key value := by
  constructor
  · intro h
    by_cases hmem : '=' ∈ line
    · obtain ⟨before,after,rfl,hb⟩ := List.eq_append_cons_of_mem hmem
      rw [entry_cut hb] at h
      obtain ⟨k,hk,heq⟩ := Option.map_eq_some_iff.mp h
      cases heq
      exact ⟨before,after,rfl,hb,((find_key _).mp hk).symm,rfl⟩
    · rw [entry,if_neg hmem] at h
      cases h
  · rintro ⟨before,after,rfl,hb,hkey,rfl⟩
    rw [entry_cut hb,(find_key _).mpr hkey.symm]
    rfl

theorem entry_other {line : List Char} (h : ∀ value, ¬ Assigns line key value) :
    ∀ k value, entry line = some (k,value) → k ≠ key := by
  rintro k value hentry rfl
  exact h value (entry_iff.mp hentry)

theorem lastValue_skip {line : List Char} (h : ∀ value, ¬ Assigns line key value) :
    lastValue (lines ++ [line]) key = lastValue lines key := by
  rw [lastValue_concat]
  cases hentry : entry line with
  | none => rfl
  | some e =>
    obtain ⟨k,value⟩ := e
    exact if_neg (entry_other h k value hentry)

theorem lastValue_none (h : ∀ line ∈ lines, ∀ value, ¬ Assigns line key value) :
    lastValue lines key = none := by
  induction lines using List.reverseRecOn with
  | nil => rfl
  | append_singleton lines line ih =>
    rw [lastValue_skip (h line (by simp))]
    exact ih fun l hl => h l (List.mem_append_left _ hl)

/-- The last line with the key, by induction on the lines behind it. -/
theorem lastValue_last {before after : List (List Char)} {line : List Char}
    (hline : Assigns line key value) (h : ∀ l ∈ after, ∀ value, ¬ Assigns l key value) :
    lastValue (before ++ line :: after) key = some value := by
  induction after using List.reverseRecOn with
  | nil =>
    rw [lastValue_concat,entry_iff.mpr hline]
    exact if_pos rfl
  | append_singleton after l ih =>
    rw [← List.cons_append,← List.append_assoc,lastValue_skip (h l (by simp))]
    exact ih fun l hl => h l (List.mem_append_left _ hl)

end Lines

section Members

/-- The member of the key has the value that a text denotes, a number being in the
range of the member. -/
def Denotes (c : Config) (key : Key) (text : List Char) : Prop :=
  match key with
  | .host => c.host = text
  | .loggingLevel => c.loggingLevel = text
  | .port => IsDecimal text → Decimal.value text < 65536 → c.port.toNat = Decimal.value text
  | .numRequests => IsDecimal text → Decimal.value text < UInt64.size →
      c.numRequests.toNat = Decimal.value text
  | .pageCount => IsDecimal text → Decimal.value text < UInt64.size →
      c.pageCount.toNat = Decimal.value text
  | .clientThreads => IsDecimal text → Decimal.value text < UInt64.size →
      c.clientThreads.toNat = Decimal.value text

/-- The member of the key is the same in both. -/
def Keeps (c c' : Config) (key : Key) : Prop :=
  match key with
  | .host => c'.host = c.host
  | .port => c'.port = c.port
  | .numRequests => c'.numRequests = c.numRequests
  | .loggingLevel => c'.loggingLevel = c.loggingLevel
  | .pageCount => c'.pageCount = c.pageCount
  | .clientThreads => c'.clientThreads = c.clientThreads

theorem Holds.denotes {text : List Char} (h : c.Holds key text) : c.Denotes key text := by
  rw [holds_iff] at h
  cases key with
  | host => exact h
  | loggingLevel => exact h
  | port =>
    intro hd hlt
    obtain ⟨v,hv,hport⟩ := h
    have hnat := toNat_of_holds hd hv
    rw [← hport,UInt64.toNat_toUInt16,hnat]
    exact Nat.mod_eq_of_lt hlt
  | numRequests =>
    intro hd _
    exact toNat_of_holds hd h
  | pageCount =>
    intro hd _
    exact toNat_of_holds hd h
  | clientThreads =>
    intro hd _
    exact toNat_of_holds hd h

/-- A text decides a member. -/
theorem Holds.keeps {text : List Char} (h : c.Holds key text) (h' : c'.Holds key text) :
    Keeps c c' key := by
  rw [holds_iff] at h h'
  cases key with
  | host => exact h'.trans h.symm
  | loggingLevel => exact h'.trans h.symm
  | port =>
    obtain ⟨v,hv,hport⟩ := h
    obtain ⟨v',hv',hport'⟩ := h'
    cases hv.symm.trans hv'
    exact hport'.symm.trans hport
  | numRequests => exact Except.ok.inj (h'.symm.trans h)
  | pageCount => exact Except.ok.inj (h'.symm.trans h)
  | clientThreads => exact Except.ok.inj (h'.symm.trans h)

theorem eq_of_keeps (h : ∀ key, Keeps c c' key) : c' = c := by
  rcases c with ⟨host,port,numRequests,loggingLevel,pageCount,clientThreads⟩
  rcases c' with ⟨host',port',numRequests',loggingLevel',pageCount',clientThreads'⟩
  rw [Config.mk.injEq]
  exact ⟨h .host,h .port,h .numRequests,h .loggingLevel,h .pageCount,h .clientThreads⟩

end Members

section Reload

/-- Whether a text can be assigned does not depend on the members. -/
theorem assign_ok (h : c.assign key value = .ok c') (d : Config) :
    ∃ d', d.assign key value = .ok d' := by
  cases key with
  | host => exact ⟨_,rfl⟩
  | loggingLevel => exact ⟨_,rfl⟩
  | port =>
    obtain ⟨v,hv,-⟩ := map_ok.mp h
    exact ⟨_,map_ok.mpr ⟨v,hv,rfl⟩⟩
  | numRequests =>
    obtain ⟨v,hv,-⟩ := map_ok.mp h
    exact ⟨_,map_ok.mpr ⟨v,hv,rfl⟩⟩
  | pageCount =>
    obtain ⟨v,hv,-⟩ := map_ok.mp h
    exact ⟨_,map_ok.mpr ⟨v,hv,rfl⟩⟩
  | clientThreads =>
    obtain ⟨v,hv,-⟩ := map_ok.mp h
    exact ⟨_,map_ok.mpr ⟨v,hv,rfl⟩⟩

theorem parseEnvLine_ok {line : List Char} (h : c.parseEnvLine line = .ok c') (d : Config) :
    ∃ d', d.parseEnvLine line = .ok d' := by
  unfold parseEnvLine at h ⊢
  cases hentry : entry line with
  | none => exact ⟨d,rfl⟩
  | some e =>
    rw [hentry] at h
    exact assign_ok h d

theorem resolve_ok (h : c.resolve env key = .ok c') (d : Config) :
    ∃ d', d.resolve env key = .ok d' := by
  unfold resolve getEnvVar at h ⊢
  cases henv : env key.name with
  | none => exact ⟨d,holds_text d key⟩
  | some value =>
    rw [henv] at h
    exact assign_ok h d

/-- Loading what has been loaded once again. -/
theorem reload {file : Option (List Char)} (h : c.loadConfig file env = .ok c') :
    c'.loadConfig file env = .ok c' := by
  obtain ⟨hholds,hport,hnum⟩ := loadConfig_holds h
  obtain ⟨d,hd,h⟩ := bind_ok.mp h
  obtain ⟨d',hd',-⟩ := bind_ok.mp h
  obtain ⟨f,hf⟩ := execute_ok (fun _ _ _ h => parseEnvLine_ok h) hd c'
  obtain ⟨f',hf'⟩ := execute_ok (fun _ _ _ h => resolve_ok h) hd' f
  have hagain : ∀ key, f'.Holds key (c'.effectiveText file env key) := by
    intro key
    have hall := resolveAll_holds hf' (file_holds hf) key
    rwa [if_pos (by cases key <;> decide)] at hall
  have heq : f' = c' := by
    apply eq_of_keeps
    intro key
    have hfirst := hholds key
    have hsecond := hagain key
    unfold effectiveText getEnvVar at hfirst hsecond
    cases henv : env key.name with
    | some value =>
      rw [henv] at hfirst hsecond
      exact hfirst.keeps hsecond
    | none =>
      cases hline : lastValue (fileLines file) key with
      | some value =>
        rw [henv,hline] at hfirst hsecond
        exact hfirst.keeps hsecond
      | none =>
        rw [henv,hline] at hsecond
        exact (holds_text c' key).keeps hsecond
  subst heq
  refine bind_ok.mpr ⟨f,hf,bind_ok.mpr ⟨f',hf',?_⟩⟩
  rw [if_neg (not_or.mpr ⟨hport,hnum⟩)]
  rfl

end Reload

/-- Each member has the value of its environment variable, else of the last line with
its key, else the one it had; and loading again changes nothing. -/
theorem resolution_law (c c' : Config) (file : Option (List Char)) (env : Environment)
    (h : c.loadConfig file env = .ok c') :
    (∀ key,
      (∀ value, env key.name = some value → c'.Denotes key value) ∧
      (env key.name = none → ∀ before line after value,
        fileLines file = before ++ line :: after → Assigns line key value →
        (∀ l ∈ after, ∀ value, ¬ Assigns l key value) → c'.Denotes key value) ∧
      (env key.name = none →
        (∀ l ∈ fileLines file, ∀ value, ¬ Assigns l key value) → Keeps c c' key)) ∧
    c'.loadConfig file env = .ok c' := by
  refine ⟨?_,reload h⟩
  intro key
  have hholds := (loadConfig_holds h).1 key
  unfold effectiveText getEnvVar at hholds
  refine ⟨?_,?_,?_⟩
  · intro value henv
    rw [henv] at hholds
    exact hholds.denotes
  · intro henv before line after value hlines hline hlast
    rw [henv,hlines,lastValue_last hline hlast] at hholds
    exact hholds.denotes
  · intro henv hnone
    rw [henv,lastValue_none hnone] at hholds
    exact (holds_text c key).keeps hholds

/-- A port given twice, the second time between spaces. -/
def repeatedPort : List Char :=
  ['P','O','R','T','=','1','\n','#','\n',' ','P','O','R','T',' ','=',' ','9','0','0','0',' ']

theorem resolution_law_repeated :
    ∃ c', initial.loadConfig (some repeatedPort) (fun _ => none) = .ok c' ∧ c'.port.toNat = 9000 ∧
      c'.loadConfig (some repeatedPort) (fun _ => none) = .ok c' := by
  have hrun : yields (initial.loadConfig (some repeatedPort) (fun _ => none)) (fun _ => true) =
      true := by decide +kernel
  obtain ⟨c',h,-⟩ := exists_of_yields hrun
  obtain ⟨hlaw,hagain⟩ := resolution_law initial c' (some repeatedPort) (fun _ => none) h
  have hline : Assigns [' ','P','O','R','T',' ','=',' ','9','0','0','0',' '] .port
      ['9','0','0','0'] :=
    ⟨[' ','P','O','R','T',' '],[' ','9','0','0','0',' '],rfl,by decide,by decide,by decide⟩
  have hport := (hlaw .port).2.1 rfl [['P','O','R','T','=','1'],['#']] _ [] _ rfl hline (by simp)
  exact ⟨c',h,hport (by decide) (by decide),hagain⟩

end Config

end FastNet.GetPage
