import CommandShell.Config.Directory
import CommandShell.Proofs.BuiltInSettings
import CommandShell.Proofs.CleanPath

/-! What the settings of a shell can be. Each of them comes from its own variable if that is set and from
the configuration otherwise, and all of them keep the rules, or there are no settings at all. -/
namespace CommandShell.Config
variable {c base : Config} {env : Environment}

/-! The rules. -/

/-- The settings keep the rules. -/
structure Valid (c : Config) : Prop where
  name : c.name ≠ []
  slash : 47 ∉ c.name
  policy : ∃ policy, c.policy? = some policy ∧ policy.name = c.subshellStatus
  aliases : ∀ entry ∈ c.definitions, entry.1 ≠ [] ∧ entry.2 ≠ []

theorem checkName_eq_nil : c.checkName = [] ↔ c.name ≠ [] ∧ 47 ∉ c.name := by
  unfold checkName
  split
  · next h => simp [List.isEmpty_iff.mp h]
  · next h =>
    have hname : c.name ≠ [] := fun he => h (List.isEmpty_iff.mpr he)
    split
    · next hs => simp [List.contains_iff_mem.mp hs]
    · next hs => simpa [hname] using fun hm => hs (List.contains_iff_mem.mpr hm)

/-- The words that are allowed are the names of the policies. -/
theorem checkPolicy_eq_nil :
    c.checkPolicy = [] ↔ ∃ policy, c.policy? = some policy ∧ policy.name = c.subshellStatus := by
  unfold checkPolicy policy? Policy.ofName?
  constructor
  · intro h
    split at h
    · next hword =>
      rcases Bool.or_eq_true_iff.mp hword with hd | hp
      · exact ⟨.discard, by simp [hd], (eq_of_beq hd).symm⟩
      · refine ⟨.propagate, ?_, (eq_of_beq hp).symm⟩
        rw [eq_of_beq hp]
        decide
    · cases h
  · rintro ⟨policy, hpolicy, hname⟩
    split at hpolicy
    · cases hpolicy
      rw [← hname]
      decide
    · split at hpolicy
      · next hp => rw [hp, Bool.or_true, if_pos rfl]
      · cases hpolicy

theorem required_eq_nil {field text : Bytes} : required field text = [] ↔ text ≠ [] := by
  unfold required
  split <;> simp_all

theorem checkAlias_eq_nil {entry : Bytes × Bytes} :
    checkAlias entry = [] ↔ entry.1 ≠ [] ∧ entry.2 ≠ [] := by
  rw [checkAlias, List.append_eq_nil_iff, required_eq_nil, required_eq_nil]

theorem violations_eq_nil : c.violations = [] ↔ c.Valid := by
  simp only [violations, List.append_eq_nil_iff, checkName_eq_nil, checkPolicy_eq_nil,
    List.flatMap_eq_nil_iff, checkAlias_eq_nil]
  exact ⟨fun ⟨⟨hname, hpolicy⟩, haliases⟩ => ⟨hname.1, hname.2, hpolicy, haliases⟩,
    fun h => ⟨⟨⟨h.name, h.slash⟩, h.policy⟩, h.aliases⟩⟩

/-! Variables. -/

/-- The settings that a variable can override. -/
inductive Setting where
  | name
  | prompt
  | colorPrompt
  | banner
  | historyFile
  | eventLog
  | subshellStatus
  | aliases
  deriving DecidableEq, Repr

/-- What a setting can be. -/
inductive Value where
  | text (s : Bytes)
  | truth (b : Bool)
  | definitions (entries : Option (List (Bytes × Bytes)))
  deriving DecidableEq, Repr

namespace Setting

def key : Setting → Bytes
  | name => "NAME"
  | prompt => "PROMPT"
  | colorPrompt => "COLOR_PROMPT"
  | banner => "BANNER"
  | historyFile => "HISTORY_FILE"
  | eventLog => "EVENT_LOG"
  | subshellStatus => "SUBSHELL_STATUS"
  | aliases => "ALIASES"

/-- The variable of a setting. -/
def variableName (x : Setting) : Bytes := "MYSHELL_" ++ x.key

def value (c : Config) : Setting → Value
  | name => .text c.name
  | prompt => .text c.prompt
  | colorPrompt => .truth c.colorPrompt
  | banner => .truth c.banner
  | historyFile => .text c.historyFile
  | eventLog => .text c.eventLog
  | subshellStatus => .text c.subshellStatus
  | aliases => .definitions c.aliases

/-- What a setting is if its variable is set to a text, which may not fit. -/
def parse? (s : Bytes) : Setting → Option Value
  | name | prompt | historyFile | eventLog | subshellStatus => some (.text s)
  | colorPrompt | banner => (truth? s).map .truth
  | aliases => (parseDefinitions (Bytes.splitOn 44 s)).toOption.map fun defs => .definitions (some defs)

/-- What becomes of a setting under some variables. -/
def settled? (env : Environment) (base : Config) (x : Setting) : Option Value :=
  if env.get x.variableName = [] then some (x.value base) else x.parse? (env.get x.variableName)

/-- A configuration is known by its settings and its directory. -/
theorem ext_value {c c' : Config} (h : ∀ x : Setting, x.value c = x.value c')
    (hd : c.directory = c'.directory) : c = c' := by
  have hname := h .name
  have hprompt := h .prompt
  have hcolor := h .colorPrompt
  have hbanner := h .banner
  have hhistory := h .historyFile
  have hevents := h .eventLog
  have hstatus := h .subshellStatus
  have haliases := h .aliases
  simp only [value, Value.text.injEq, Value.truth.injEq, Value.definitions.injEq] at *
  cases c
  cases c'
  simp_all

end Setting

section
variable (env : Environment) (key : Bytes)

theorem settled_text (old : Bytes) :
    (if env.get ("MYSHELL_" ++ key) = [] then some (Value.text old)
      else some (.text (env.get ("MYSHELL_" ++ key)))) = some (.text (text env key old)) := by
  unfold text setting
  split <;> simp_all

theorem settled_truth (field : Bytes) (old : Bool) :
    (if env.get ("MYSHELL_" ++ key) = [] then some (Value.truth old)
      else (truth? (env.get ("MYSHELL_" ++ key))).map .truth) =
      (truth env key field old).toOption.map .truth := by
  unfold truth setting
  simp only [List.isEmpty_iff]
  split
  · rfl
  · cases truth? (env.get ("MYSHELL_" ++ key)) <;> rfl

theorem settled_definitions (old : Option (List (Bytes × Bytes))) :
    (if env.get ("MYSHELL_" ++ "ALIASES") = [] then some (Value.definitions old)
      else (parseDefinitions (Bytes.splitOn 44 (env.get ("MYSHELL_" ++ "ALIASES")))).toOption.map
        fun defs => .definitions (some defs)) = (aliasList env old).toOption.map .definitions := by
  unfold aliasList setting
  simp only [List.isEmpty_iff]
  split
  · rfl
  · cases parseDefinitions (Bytes.splitOn 44 (env.get ("MYSHELL_" ++ "ALIASES"))) <;> rfl

end

theorem settled_colorPrompt (env : Environment) (base : Config) :
    Setting.settled? env base .colorPrompt =
      (truth env "COLOR_PROMPT" "ColorPrompt" base.colorPrompt).toOption.map .truth :=
  settled_truth ..

theorem settled_banner (env : Environment) (base : Config) :
    Setting.settled? env base .banner =
      (truth env "BANNER" "Banner" base.banner).toOption.map .truth :=
  settled_truth ..

theorem settled_aliases (env : Environment) (base : Config) :
    Setting.settled? env base .aliases = (aliasList env base.aliases).toOption.map .definitions :=
  settled_definitions ..

/-- The settings of a configuration, each overridden by its own variable. -/
structure Merged (env : Environment) (base c : Config) : Prop where
  value : ∀ x : Setting, x.settled? env base = some (x.value c)
  directory : c.directory = base.directory

theorem Merged.of_override (h : base.override env = .ok c) : Merged env base c := by
  unfold override at h
  dsimp only at h
  split at h
  · next color banner aliases hcolor hbanner haliases =>
    cases h
    refine ⟨fun x => ?_, rfl⟩
    cases x with
    | name | prompt | historyFile | eventLog | subshellStatus => exact settled_text ..
    | colorPrompt => rw [settled_colorPrompt, hcolor]; rfl
    | banner => rw [settled_banner, hbanner]; rfl
    | aliases => rw [settled_aliases, haliases]; rfl
  · cases h

theorem Merged.unique {c' : Config} (h : Merged env base c) (h' : Merged env base c') : c = c' :=
  Setting.ext_value (fun x => Option.some.inj ((h.value x).symm.trans (h'.value x)))
    (h.directory.trans h'.directory.symm)

theorem override_eq_ok_iff : base.override env = .ok c ↔ Merged env base c := by
  refine ⟨.of_override, fun h => ?_⟩
  have fits {β : Type} {r : Except BadVariable β} {f : β → Value} {v : Value}
      (h : r.toOption.map f = some v) : ∃ b, r = .ok b := by
    cases r with
    | error e => cases h
    | ok b => exact ⟨b, rfl⟩
  obtain ⟨color, hcolor⟩ := fits ((settled_colorPrompt env base).symm.trans (h.value .colorPrompt))
  obtain ⟨banner, hbanner⟩ := fits ((settled_banner env base).symm.trans (h.value .banner))
  obtain ⟨aliases, haliases⟩ := fits ((settled_aliases env base).symm.trans (h.value .aliases))
  obtain ⟨c', hc'⟩ : ∃ c', base.override env = .ok c' := by
    simp only [override, hcolor, hbanner, haliases]
    exact ⟨_, rfl⟩
  rw [hc', h.unique (.of_override hc')]

/-! Loading. -/

theorem finish_merged (h : Merged env base c) :
    finish env base = if c.violations = [] then .ok c else .error (.violations c.violations) := by
  simp only [finish, override_eq_ok_iff.mpr h, List.isEmpty_iff]

theorem finish_eq_ok_iff : finish env base = .ok c ↔ Merged env base c ∧ c.Valid := by
  constructor
  · intro h
    cases hc : base.override env with
    | error bad => simp [finish, hc] at h
    | ok c' =>
      have hmerged := Merged.of_override hc
      rw [finish_merged hmerged] at h
      split at h
      · next hv =>
        cases h
        exact ⟨hmerged, violations_eq_nil.mp hv⟩
      · cases h
  · rintro ⟨hmerged, hvalid⟩
    rw [finish_merged hmerged, if_pos (violations_eq_nil.mpr hvalid)]

theorem isAbsolute_locate (hd : c.directory = [] ∨ Path.isAbsolute c.directory = true)
    (name : Bytes) : c.locate name = [] ∨ Path.isAbsolute (c.locate name) = true := by
  unfold locate
  split
  · exact .inl rfl
  · split
    · exact .inr (by assumption)
    · split
      · exact .inl rfl
      · next hne =>
        have hdir : Path.isAbsolute c.directory = true :=
          hd.resolve_left fun h => hne (List.isEmpty_iff.mpr h)
        exact .inr (Path.isAbsolute_join hdir)

section
variable {σ : Type} {files : Storage σ} {workingDir path : Bytes} {s : σ}

/-- The configuration of a directory, before any variable is looked at. -/
def Stored (files : Storage σ) (workingDir path : Bytes) (s : σ) (base : Config) : Prop :=
  let dir := directoryOf workingDir path
  ∃ text stored, files.read (Path.join [dir, fileName]) s = .ok text ∧ ofBytes text = .ok stored ∧
    base = { stored with directory := dir }

theorem load_stored (h : Stored files workingDir path s base) :
    load files env workingDir path s = finish env base := by
  obtain ⟨text, stored, hread, htext, rfl⟩ := h
  simp only [load, hread, htext]

theorem load_eq_ok_iff :
    load files env workingDir path s = .ok c ↔
      ∃ base, Stored files workingDir path s base ∧ Merged env base c ∧ c.Valid := by
  constructor
  · intro h
    cases hread : files.read (Path.join [directoryOf workingDir path, fileName]) s with
    | error failure => simp [load, hread] at h
    | ok text =>
      cases htext : ofBytes text with
      | error e => simp [load, hread, htext] at h
      | ok stored =>
        have hstored : Stored files workingDir path s
            { stored with directory := directoryOf workingDir path } :=
          ⟨text, stored, hread, htext, rfl⟩
        rw [load_stored hstored] at h
        exact ⟨_, hstored, finish_eq_ok_iff.mp h⟩
  · rintro ⟨base, hstored, hmerged⟩
    rw [load_stored hstored]
    exact finish_eq_ok_iff.mpr hmerged

theorem Stored.unique {base' : Config} (h : Stored files workingDir path s base)
    (h' : Stored files workingDir path s base') : base = base' := by
  obtain ⟨text, stored, hread, htext, rfl⟩ := h
  obtain ⟨text', stored', hread', htext', rfl⟩ := h'
  cases hread.symm.trans hread'
  cases htext.symm.trans htext'
  rfl

theorem isAbsolute_directory (hw : Path.isAbsolute workingDir = true)
    (h : Stored files workingDir path s base) : Path.isAbsolute base.directory = true := by
  obtain ⟨text, stored, -, -, rfl⟩ := h
  exact Path.isAbsolute_absolute hw _

end

/-- Two sets of variables that agree on the one of a setting give it the same value. -/
theorem Merged.value_eq {env' : Environment} {c' : Config} (h : Merged env base c)
    (h' : Merged env' base c') {x : Setting}
    (hx : env.get x.variableName = env'.get x.variableName) : x.value c = x.value c' := by
  have hsettled : x.settled? env base = x.settled? env' base := by
    simp only [Setting.settled?, hx]
  exact Option.some.inj ((h.value x).symm.trans (hsettled.trans (h'.value x)))

/-- A way to load the settings that are kept somewhere gives them as the variables have them, if these
all fit and the rules are kept. -/
structure Faithful (kept : Config → Prop) (load : Environment → Except LoadError Config) : Prop where
  success : ∀ env c, load env = .ok c ↔ ∃ base, kept base ∧ Merged env base c ∧ c.Valid
  failure : ∀ env base c, kept base → Merged env base c → ¬ c.Valid →
    load env = .error (.violations c.violations)
  /-- Files are named by absolute paths. -/
  paths : ∀ env c, load env = .ok c → ∀ path ∈ [c.historyPath, c.eventLogPath],
    path = [] ∨ Path.isAbsolute path = true
  /-- A setting stays the same as long as its own variable does. -/
  others : ∀ env env' c c', load env = .ok c → load env' = .ok c' → ∀ x : Setting,
    env.get x.variableName = env'.get x.variableName → x.value c = x.value c'

theorem Faithful.of_finish {kept : Config → Prop} {load : Environment → Except LoadError Config}
    (success : ∀ env c, load env = .ok c ↔ ∃ base, kept base ∧ Merged env base c ∧ c.Valid)
    (finish : ∀ env base, kept base → load env = finish env base)
    (unique : ∀ base base', kept base → kept base' → base = base')
    (directory : ∀ base, kept base → base.directory = [] ∨ Path.isAbsolute base.directory = true) :
    Faithful kept load where
  success := success
  failure env base c hkept hmerged hvalid := by
    rw [finish env base hkept, finish_merged hmerged, if_neg fun h => hvalid (violations_eq_nil.mp h)]
  paths env c h path hm := by
    obtain ⟨base, hkept, hmerged, -⟩ := (success env c).mp h
    have hdir := directory base hkept
    rw [← hmerged.directory] at hdir
    simp only [List.mem_cons, List.not_mem_nil, or_false] at hm
    rcases hm with rfl | rfl
    · exact isAbsolute_locate hdir c.historyFile
    · exact isAbsolute_locate hdir c.eventLog
  others env env' c c' h h' x hx := by
    obtain ⟨base, hkept, hmerged, -⟩ := (success env c).mp h
    obtain ⟨base', hkept', hmerged', -⟩ := (success env' c').mp h'
    obtain rfl := unique base base' hkept hkept'
    exact hmerged.value_eq hmerged' hx

/-- Settings are loaded faithfully from the directory of a configuration, whatever the files are kept
in, and from the text that is built in. -/
theorem settings_faithful {σ : Type} (files : Storage σ) {workingDir : Bytes}
    (hw : Path.isAbsolute workingDir = true) (path : Bytes) (s : σ) :
    Faithful (Stored files workingDir path s) (load files · workingDir path s) ∧
      Faithful (fun base => ofBytes defaultText = .ok base) standard := by
  constructor
  · exact .of_finish (fun _ _ => load_eq_ok_iff) (fun _ _ => load_stored)
      (fun _ _ => Stored.unique) fun _ h => .inr (isAbsolute_directory hw h)
  · have hbuiltIn {base : Config} : ofBytes defaultText = .ok base ↔ base = builtIn := by
      rw [ofBytes_defaultText, Except.ok.injEq, eq_comm]
    simp only [hbuiltIn]
    refine .of_finish (fun env c => ?_) ?_ ?_ ?_
    · rw [standard, finish_eq_ok_iff]
      exact ⟨fun h => ⟨builtIn, rfl, h⟩, fun ⟨_, hb, h⟩ => hb ▸ h⟩
    · rintro env _ rfl
      rfl
    · rintro _ _ rfl rfl
      rfl
    · rintro _ rfl
      exact .inl (by rw [builtIn_eq])

/-- The name comes from its variable and all else from the file. -/
theorem settings_faithful_named :
    let env := Environment.empty.set "MYSHELL_NAME" "sh"
    let table : FileTable := ⟨[("/a/config.yaml", { directory := false, data := defaultText })]⟩
    let loaded : Config := { builtIn with name := "sh", directory := "/a" }
    Path.isAbsolute "/" = true ∧ load FileTable.storage env "/" "a" table = .ok loaded ∧
      loaded.historyPath = "/a/history" ∧ Path.isAbsolute loaded.historyPath = true := by
  intro env table loaded
  have hw : Path.isAbsolute "/" = true := by decide
  have h := (settings_faithful FileTable.storage hw "a" table).1
  have hdir : directoryOf "/" "a" = "/a" := by decide +kernel
  have hstored : Stored FileTable.storage "/" "a" table { builtIn with directory := "/a" } := by
    have hfound : table.read? (Path.join ["/a", fileName]) = some defaultText := by
      decide +kernel
    refine ⟨defaultText, builtIn, ?_, ofBytes_defaultText, by rw [hdir]⟩
    rw [hdir]
    simp only [FileTable.storage, hfound]
  have hmerged : Merged env { builtIn with directory := "/a" } loaded := by
    refine ⟨fun x => ?_, rfl⟩
    simp only [loaded, builtIn_eq]
    cases x <;> decide +kernel
  have hvalid : loaded.Valid := by
    refine violations_eq_nil.mp ?_
    simp only [loaded, builtIn_eq]
    decide +kernel
  have hload : load FileTable.storage env "/" "a" table = .ok loaded :=
    (h.success env loaded).mpr ⟨_, hstored, hmerged, hvalid⟩
  have hpath : loaded.historyPath = "/a/history" := by
    simp only [loaded, builtIn_eq]
    decide +kernel
  refine ⟨hw, hload, hpath, ?_⟩
  have hor := h.paths env loaded hload loaded.historyPath List.mem_cons_self
  rw [hpath] at hor ⊢
  exact hor.resolve_left (by decide)

end CommandShell.Config
