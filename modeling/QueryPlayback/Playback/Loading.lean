import QueryPlayback.Playback.Options
import Std.Data.TreeMap.Lemmas
import Mathlib.Data.List.Nodup

/-!
# Loading the plugins

`load_plugins` takes the names of the modules from a list that the build has
written, finds the definition of each with the dynamic linker and has it add its
plugins to the registry. The start-up sees the registry through its maps, which
are ordered by the names, so the order of the list leaves no trace in it.

## Implementation notes

The linker is a parameter. A module that is not found aborts the program. The
pointers of a map are the plugins themselves.
-/

namespace QueryPlayback.Startup

section Tokenize

/-- `str.find_first_of(delimiters, pos)`. -/
def findFirstOf (delimiters str : Bytes) (pos : ℕ) : Option ℕ :=
  ((str.drop pos).findIdx? delimiters.contains).map (pos + ·)

theorem findFirstOf_bounds {delimiters str : Bytes} {lastPos pos : ℕ}
    (h : findFirstOf delimiters str lastPos = some pos) : lastPos ≤ pos ∧ pos < str.length := by
  obtain ⟨i, hi, rfl⟩ := Option.map_eq_some_iff.mp h
  have hlt := (List.findIdx?_eq_some_iff_findIdx_eq.mp hi).1
  rw [List.length_drop] at hlt
  omega

/-- The loop of `tokenize` from a position on. -/
def tokenizeFrom (delimiters : Bytes) (trimEmpty : Bool) (str : Bytes) (lastPos : ℕ) :
    List Bytes :=
  match _hpos : findFirstOf delimiters str lastPos with
  | none =>
      if str.length ≠ lastPos || !trimEmpty then
        [(str.drop lastPos).take (str.length - lastPos)]
      else []
  | some pos =>
      (if pos ≠ lastPos || !trimEmpty then [(str.drop lastPos).take (pos - lastPos)] else []) ++
        tokenizeFrom delimiters trimEmpty str (pos + 1)
termination_by str.length - lastPos
decreasing_by
  have hbounds := findFirstOf_bounds _hpos
  omega

/-- `tokenize(str, tokens, delimiters, trimEmpty)`. -/
def tokenize (str delimiters : Bytes) (trimEmpty : Bool) : List Bytes :=
  tokenizeFrom delimiters trimEmpty str 0

/-- The text at the first delimiter. -/
theorem exists_split_of_findIdx? {p : Byte → Bool} {str : Bytes} {i : ℕ}
    (h : str.findIdx? p = some i) : ∃ sep, p sep = true ∧
      str = str.take i ++ sep :: str.drop (i + 1) ∧ ∀ c ∈ str.take i, p c = false := by
  obtain ⟨hi, hsep, hbefore⟩ := List.findIdx?_eq_some_iff_getElem.mp h
  refine ⟨str[i], hsep, ?_, fun c hc => ?_⟩
  · rw [List.getElem_cons_drop, List.take_append_drop]
  · obtain ⟨j, hj, rfl⟩ := List.mem_take_iff_getElem.mp hc
    exact Bool.eq_false_iff.mpr (hbefore j (by omega))

/-- The tokens are the parts between the delimiters, without the empty ones if these are
trimmed. -/
theorem tokenizeFrom_eq (delimiters : Bytes) (trimEmpty : Bool) (str : Bytes) (lastPos : ℕ)
    (hle : lastPos ≤ str.length) : tokenizeFrom delimiters trimEmpty str lastPos =
      ((str.drop lastPos).splitOnP delimiters.contains).filter
        fun t => t.length ≠ 0 || !trimEmpty := by
  induction hleft : str.length - lastPos using Nat.strong_induction_on generalizing lastPos with
  | _ left ih =>
      have hlength : (str.drop lastPos).length = str.length - lastPos := List.length_drop
      rw [tokenizeFrom]
      split
      case h_1 hfind =>
        have hnone : ∀ c ∈ str.drop lastPos, delimiters.contains c = false :=
          List.findIdx?_eq_none_iff.mp (Option.map_eq_none_iff.mp hfind)
        have hsize : (str.length - lastPos ≠ 0) = (str.length ≠ lastPos) := by
          simp only [ne_eq, eq_iff_iff]
          omega
        rw [List.splitOnP_eq_singleton hnone, List.filter_cons, List.filter_nil, hlength,
          List.take_of_length_le (Nat.le_of_eq hlength)]
        simp only [hsize]
      case h_2 pos hfind =>
        obtain ⟨i, hi, rfl⟩ := Option.map_eq_some_iff.mp hfind
        obtain ⟨sep, hsep, hstr, hbefore⟩ := exists_split_of_findIdx? hi
        have hlt := (List.findIdx?_eq_some_iff_findIdx_eq.mp hi).1
        rw [hlength] at hlt
        have hsize : ((str.drop lastPos).take i).length = i := by
          rw [List.length_take, hlength]
          omega
        have hsplit : (str.drop lastPos).splitOnP delimiters.contains =
            (str.drop lastPos).take i ::
              (str.drop (lastPos + i + 1)).splitOnP delimiters.contains := by
          conv_lhs => rw [hstr]
          rw [List.splitOnP_append_cons_of_forall_mem hbefore sep hsep, List.drop_drop,
            Nat.add_assoc]
        rw [hsplit, List.filter_cons, hsize, Nat.add_sub_cancel_left,
          ih (str.length - (lastPos + i + 1)) (by omega) _ (by omega) rfl]
        have hpos : (lastPos + i ≠ lastPos) = (i ≠ 0) := by
          simp only [ne_eq, eq_iff_iff]
          omega
        simp only [hpos]
        split_ifs <;> rfl

/-- Joined names that are not empty are the tokens again. -/
theorem tokenize_intercalate {delimiter : Byte} {names : List Bytes}
    (hnames : ∀ name ∈ names, name ≠ [] ∧ delimiter ∉ name) :
    tokenize ([delimiter].intercalate names) [delimiter] true = names := by
  have hsplit : ∀ names : List Bytes, (∀ name ∈ names, name ≠ [] ∧ delimiter ∉ name) →
      names ≠ [] → ([delimiter].intercalate names).splitOnP [delimiter].contains = names := by
    intro names
    induction names with
    | nil => exact fun _ hne => absurd rfl hne
    | cons name names ih =>
        intro hnames _
        obtain ⟨⟨-, hname⟩, hrest⟩ := List.forall_mem_cons.mp hnames
        have hnone : ∀ c ∈ name, [delimiter].contains c = false := by
          intro c hc
          simp only [List.contains_cons, List.contains_nil, Bool.or_false, beq_eq_false_iff_ne]
          exact fun heq => hname (heq ▸ hc)
        cases names with
        | nil => rw [List.intercalate_singleton, List.splitOnP_eq_singleton hnone]
        | cons name' names =>
            rw [List.intercalate_cons_cons, List.append_assoc, List.singleton_append,
              List.splitOnP_append_cons_of_forall_mem hnone delimiter (by simp),
              ih hrest (List.cons_ne_nil _ _)]
  rw [tokenize, tokenizeFrom_eq _ _ _ _ (Nat.zero_le _), List.drop_zero]
  cases names with
  | nil => rfl
  | cons name names =>
      rw [hsplit _ hnames (List.cons_ne_nil _ _), List.filter_eq_self]
      intro t ht
      simpa using (hnames t ht).1

end Tokenize

section Registry

/-- `class PluginRegistry`, with the flags `active` of the plugins. -/
structure PluginRegistry where
  loadedPluginNames : List Bytes := []
  allPlugins : Std.TreeMap String Plugin := ∅
  dbclientPlugins : Std.TreeMap String Plugin := ∅
  reportPlugins : Std.TreeMap String Plugin := ∅
  inputPlugins : Std.TreeMap String Plugin := ∅
  dispatcherPlugins : Std.TreeMap String Plugin := ∅
  active : Plugin → Bool := fun _ => false

namespace PluginRegistry

/-- The map of the plugins of one kind. -/
def ofKind (r : PluginRegistry) : Kind → Std.TreeMap String Plugin
  | .dbClient => r.dbclientPlugins
  | .input => r.inputPlugins
  | .dispatcher => r.dispatcherPlugins
  | .report => r.reportPlugins

/-- `add(name, p)`, overloaded by the kind of the plugin. -/
def add (name : String) (p : Plugin) (r : PluginRegistry) : PluginRegistry :=
  let r := { r with allPlugins := r.allPlugins.insertIfNew name p }
  match p.kind with
  | .dbClient => { r with dbclientPlugins := r.dbclientPlugins.insertIfNew name p }
  | .input => { r with inputPlugins := r.inputPlugins.insertIfNew name p }
  | .dispatcher => { r with dispatcherPlugins := r.dispatcherPlugins.insertIfNew name p }
  | .report =>
      { r with
        active := fun q => if q = p then true else r.active q
        reportPlugins := r.reportPlugins.insertIfNew name p }

/-- `loaded_plugin_names.push_back(plugin_name)`. -/
def pushName (pluginName : Bytes) (r : PluginRegistry) : PluginRegistry :=
  { r with loadedPluginNames := r.loadedPluginNames ++ [pluginName] }

/-- The registry holds the given plugins: its maps, in their order, and the flags are what the
start-up takes them for. -/
structure Holds (r : PluginRegistry) (registered : Registry) : Prop where
  all : r.allPlugins.toList = registered.allPlugins.map fun p => (p.name, p)
  reports : r.reportPlugins.toList =
    (registered.allPlugins.filter fun p => p.kind = .report).map fun p => (p.name, p)
  find : ∀ kind name, (r.ofKind kind)[name]? = registered.find kind name
  active : ∀ p, r.active p = (registered.registered p && p.kind = .report)

end PluginRegistry

end Registry

section Load

/-- `plugin::definition`, of which only the function is used. -/
structure Definition where
  init : PluginRegistry → PluginRegistry

/-- The dynamic linker. A null pointer stands for the program itself. -/
structure Linker where
  Handle : Type
  dlopen : Option Bytes → Option Handle
  dlsym : Handle → Bytes → Option Definition

/-- `plugin_decl_sym`. -/
def pluginDeclSym (pluginName : Bytes) : Bytes :=
  bytes "_percona_playback_" ++ pluginName ++ bytes "_plugin_"

/-- `plugin_lib_name`. -/
def pluginLibName (pluginName : Bytes) : Bytes :=
  bytes "lib" ++ pluginName ++ bytes "_plugin.so"

variable (l : Linker)

/-- The definition that `load_plugin` finds, if it does. -/
def Linker.find (soFile : Option Bytes) (pluginName : Bytes) : Option Definition := do
  let dlHandle ← l.dlopen soFile
  l.dlsym dlHandle (pluginDeclSym pluginName)

/-- `load_plugin(so_file, plugin_name)`, which may abort. -/
def loadPlugin (soFile : Option Bytes) (pluginName : Bytes) (r : PluginRegistry) :
    Option PluginRegistry := do
  let definition ← l.find soFile pluginName
  return (definition.init r).pushName pluginName

/-- `load_plugins()`, with the two lists that the build has written. -/
def loadPlugins (builtinLoadList pluginList : Bytes) (r : PluginRegistry) :
    Option PluginRegistry := do
  let comma := bytes ","
  let r ← (tokenize builtinLoadList comma true).foldlM
    (fun r pluginName => loadPlugin l none pluginName r) r
  (tokenize pluginList comma true).foldlM
    (fun r pluginName => loadPlugin l (some (pluginLibName pluginName)) pluginName r) r

end Load

/-- The modules of the repository, by their directories. -/
inductive Module
  | errorReport
  | fullReport
  | generalLog
  | mysqlClient
  | nullDbclient
  | queryLog
  | simpleReport
  | threadPerConnection
  | threadPool
  deriving DecidableEq, Repr

namespace Module

def name : Module → Bytes
  | errorReport => bytes "error_report"
  | fullReport => bytes "full_report"
  | generalLog => bytes "general_log"
  | mysqlClient => bytes "mysql_client"
  | nullDbclient => bytes "null_dbclient"
  | queryLog => bytes "query_log"
  | simpleReport => bytes "simple_report"
  | threadPerConnection => bytes "thread_per_connection"
  | threadPool => bytes "thread_pool"

/-- The plugins that the module adds. -/
def plugins : Module → List Plugin
  | errorReport => [.errorReport]
  | fullReport => [.fullReport]
  | generalLog => [.generalLog]
  | mysqlClient => [.libmysqlclient]
  | nullDbclient => [.null]
  | queryLog => [.queryLog, .queryLogReport]
  | simpleReport => [.simpleReport]
  | threadPerConnection => [.threadPerConnection]
  | threadPool => [.threadPool]

/-- The `init` functions of the modules. -/
def definition (m : Module) : Definition where
  init r := m.plugins.foldl (fun r p => r.add p.name p) r

theorem name_valid (m : Module) : m.name ≠ [] ∧ (44 : Byte) ∉ m.name := by cases m <;> decide

end Module

section Maps

variable {t : Std.TreeMap String Plugin} {P : Plugin → Prop}

theorem Plugin.name_injective : Function.Injective Plugin.name := by
  intro p q h
  cases p <;> cases q <;> first | rfl | exact absurd h (by decide)

/-- The map has the plugins with the property, each under its name. -/
def HasPlugins (t : Std.TreeMap String Plugin) (P : Plugin → Prop) : Prop :=
  ∀ name q, t[name]? = some q ↔ q.name = name ∧ P q

/-- Inserting a plugin under its name, whether it is there or not. -/
theorem HasPlugins.insertIfNew (h : HasPlugins t P) (p : Plugin) :
    HasPlugins (t.insertIfNew p.name p) fun q => P q ∨ q = p := by
  intro name q
  rw [Std.TreeMap.getElem?_insertIfNew]
  simp only [Std.compare_eq_iff_eq]
  by_cases hnew : p.name = name ∧ p.name ∉ t
  · obtain ⟨rfl, hnew⟩ := hnew
    rw [if_pos ⟨rfl, hnew⟩, Option.some.injEq]
    constructor
    · rintro rfl
      exact ⟨rfl, Or.inr rfl⟩
    · exact fun hq => (Plugin.name_injective hq.1).symm
  · rw [if_neg hnew, h name q]
    refine and_congr_right fun hname => ⟨Or.inl, fun hq => hq.elim id ?_⟩
    rintro rfl
    have hmem : q.name ∈ t := by
      by_contra hnot
      exact hnew ⟨hname, hnot⟩
    obtain ⟨q', hq'⟩ := Option.isSome_iff_exists.mp (Std.TreeMap.mem_iff_isSome_getElem?.mp hmem)
    obtain ⟨hsame, hP⟩ := (h _ _).mp hq'
    exact Plugin.name_injective hsame ▸ hP

theorem HasPlugins.congr {P' : Plugin → Prop} (h : HasPlugins t P) (hP : ∀ q, P q ↔ P' q) :
    HasPlugins t P' := fun name q => by rw [h name q, hP]

/-- The map is iterated in the order of the names. -/
theorem HasPlugins.toList_eq {registered : Plugin → Bool}
    (h : HasPlugins t fun q => registered q = true) :
    t.toList = (Plugin.all.filter registered).map fun p => (p.name, p) := by
  have hsorted : ((Plugin.all.filter registered).map fun p => (p.name, p)).Pairwise
      fun a b => compare a.1 b.1 = .lt := by
    rw [List.pairwise_map]
    refine List.Pairwise.filter _ ?_
    have hall := Plugin.all_sorted
    rw [List.pairwise_map] at hall
    exact hall.imp fun hlt => compareOfLessAndEq_eq_lt.mpr hlt
  have hnodup : ∀ {l : List (String × Plugin)},
      l.Pairwise (fun a b => compare a.1 b.1 = .lt) → l.Nodup := by
    intro l hl
    refine hl.imp ?_
    rintro a _ hlt rfl
    simp at hlt
  refine List.Perm.eq_of_pairwise (fun a b _ _ hab hba => ?_) Std.TreeMap.ordered_keys_toList
    hsorted ((List.perm_ext_iff_of_nodup (hnodup Std.TreeMap.ordered_keys_toList)
      (hnodup hsorted)).mpr ?_)
  · have hswap : compare a.1 b.1 = (compare b.1 a.1).swap := Std.OrientedCmp.eq_swap
    rw [hswap, hba] at hab
    cases hab
  · rintro ⟨name, p⟩
    rw [Std.TreeMap.mem_toList_iff_getElem?_eq_some, h name p, List.mem_map]
    constructor
    · rintro ⟨rfl, hp⟩
      exact ⟨p, List.mem_filter.mpr ⟨p.mem_all, hp⟩, rfl⟩
    · rintro ⟨q, hq, heq⟩
      cases heq
      exact ⟨rfl, (List.mem_filter.mp hq).2⟩

end Maps

namespace PluginRegistry

/-- The registry has these plugins in its maps. -/
structure Has (r : PluginRegistry) (registered : Plugin → Bool) : Prop where
  all : HasPlugins r.allPlugins fun q => registered q = true
  kind : ∀ kind, HasPlugins (r.ofKind kind) fun q => registered q = true ∧ q.kind = kind
  active : ∀ q, r.active q = (registered q && q.kind = .report)

theorem has_empty : ({} : PluginRegistry).Has fun _ => false where
  all name q := by simp
  kind kind name q := by cases kind <;> simp [ofKind]
  active q := rfl

/-- Adding a plugin a second time changes nothing. -/
theorem Has.add {r : PluginRegistry} {registered : Plugin → Bool} (h : r.Has registered)
    (p : Plugin) : (r.add p.name p).Has fun q => registered q || q = p := by
  have hmap : ∀ kind, HasPlugins (if p.kind = kind then (r.ofKind kind).insertIfNew p.name p
      else r.ofKind kind) fun q => (registered q || decide (q = p)) = true ∧ q.kind = kind := by
    intro kind
    split_ifs with hkind
    · refine ((h.kind kind).insertIfNew p).congr fun q => ?_
      rw [Bool.or_eq_true, decide_eq_true_eq, or_and_right]
      refine or_congr_right (iff_self_and.mpr ?_)
      rintro rfl
      exact hkind
    · refine (h.kind kind).congr fun q => ?_
      rw [Bool.or_eq_true, decide_eq_true_eq, or_and_right]
      refine (or_iff_left ?_).symm
      rintro ⟨rfl, hq⟩
      exact hkind hq
  have hall : HasPlugins (r.allPlugins.insertIfNew p.name p)
      fun q => (registered q || decide (q = p)) = true :=
    (h.all.insertIfNew p).congr fun q => by rw [Bool.or_eq_true, decide_eq_true_eq]
  constructor
  case all =>
    rw [PluginRegistry.add]
    cases p.kind <;> exact hall
  case kind =>
    intro kind
    have hkind := hmap kind
    rw [PluginRegistry.add]
    cases hp : p.kind <;> cases kind <;> simpa [hp, ofKind] using hkind
  case active =>
    intro q
    have hactive := h.active q
    rw [PluginRegistry.add]
    by_cases hq : q = p
    · subst hq
      cases hp : q.kind <;> simp_all
    · cases hp : p.kind <;> simp_all

theorem Has.addAll {r : PluginRegistry} {registered : Plugin → Bool} (h : r.Has registered)
    (ps : List Plugin) : (ps.foldl (fun r p => r.add p.name p) r).Has
      fun q => registered q || ps.contains q := by
  induction ps generalizing r registered with
  | nil => simpa using h
  | cons p ps ih =>
      have hmore := ih (h.add p)
      have hcontains : (fun q => registered q || (p :: ps).contains q) =
          fun q => registered q || decide (q = p) || ps.contains q := by
        funext q
        rw [List.contains_cons, Bool.or_assoc]
        rfl
      rwa [List.foldl_cons, hcontains]

theorem loadedPluginNames_add (name : String) (p : Plugin) (r : PluginRegistry) :
    (r.add name p).loadedPluginNames = r.loadedPluginNames := by
  rw [PluginRegistry.add]
  cases p.kind <;> rfl

theorem loadedPluginNames_addAll (ps : List Plugin) (r : PluginRegistry) :
    (ps.foldl (fun r p => r.add p.name p) r).loadedPluginNames = r.loadedPluginNames := by
  induction ps generalizing r with
  | nil => rfl
  | cons p ps ih => rw [List.foldl_cons, ih, loadedPluginNames_add]

theorem Has.pushName {r : PluginRegistry} {registered : Plugin → Bool} (h : r.Has registered)
    (pluginName : Bytes) : (r.pushName pluginName).Has registered :=
  ⟨h.all, h.kind, h.active⟩

/-- The start-up gets what the registry has. -/
theorem Has.holds {r : PluginRegistry} {registered : Plugin → Bool} (h : r.Has registered) :
    r.Holds ⟨registered⟩ where
  all := h.all.toList_eq
  reports := by
    have hreports : HasPlugins r.reportPlugins fun q =>
        (registered q && decide (q.kind = .report)) = true :=
      (h.kind .report).congr fun q => by rw [Bool.and_eq_true, decide_eq_true_eq]
    rw [hreports.toList_eq, Registry.allPlugins, List.filter_filter]
    simp only [Bool.and_comm]
  find kind name := by
    apply Option.ext
    intro p
    rw [h.kind kind name p, Registry.find, Registry.allPlugins, List.find?_filter]
    constructor
    · rintro ⟨rfl, hp, rfl⟩
      rw [List.find?_eq_some_iff_append]
      obtain ⟨before, behind, hsplit⟩ := List.append_of_mem p.mem_all
      refine ⟨by simpa using hp, before, behind, hsplit, fun q hq => ?_⟩
      have hnodup : Plugin.all.Nodup := by decide
      rw [hsplit] at hnodup
      have hne : q ≠ p := by
        rintro rfl
        exact (List.nodup_middle.mp hnodup).notMem (List.mem_append_left _ hq)
      simpa using Or.inr (Or.inr fun heq => hne (Plugin.name_injective heq))
    · intro hp
      have hp := List.find?_some hp
      simp only [decide_eq_true_eq] at hp
      exact ⟨hp.2.2, hp.1, hp.2.1⟩
  active p := h.active p

end PluginRegistry

section Loaded

variable {l : Linker} (soFile : Bytes → Option Bytes)

/-- The names are loaded one behind the other until one is not found. -/
theorem loadPlugin_eq_none_iff (names : List Bytes) (r : PluginRegistry) :
    names.foldlM (fun r name => loadPlugin l (soFile name) name r) r = none ↔
      ∃ name ∈ names, l.find (soFile name) name = none := by
  induction names generalizing r with
  | nil => simp [pure]
  | cons name names ih =>
      rw [List.foldlM_cons, loadPlugin]
      cases hfind : l.find (soFile name) name with
      | none => simp [hfind]
      | some definition => simp [hfind, ih]

/-- Loading modules that are found adds their plugins. -/
theorem loadModules {ms : List Module}
    (hfound : ∀ m ∈ ms, l.find (soFile m.name) m.name = some m.definition) {r : PluginRegistry}
    {registered : Plugin → Bool} (h : r.Has registered) :
    ∃ r', (ms.map Module.name).foldlM (fun r name => loadPlugin l (soFile name) name r) r =
        some r' ∧
      r'.loadedPluginNames = r.loadedPluginNames ++ ms.map Module.name ∧
      r'.Has fun q => registered q || ms.any fun m => m.plugins.contains q := by
  induction ms generalizing r registered with
  | nil => exact ⟨r, rfl, (List.append_nil _).symm, by simpa using h⟩
  | cons m ms ih =>
      obtain ⟨hm, hrest⟩ := List.forall_mem_cons.mp hfound
      obtain ⟨r', hload, hnames, hhas⟩ := ih hrest ((h.addAll m.plugins).pushName m.name)
      refine ⟨r', ?_, ?_, ?_⟩
      · rw [List.map_cons, List.foldlM_cons, loadPlugin, hm]
        exact hload
      · rw [hnames, PluginRegistry.pushName, PluginRegistry.loadedPluginNames_addAll,
          List.append_assoc, List.singleton_append, List.map_cons]
      · simpa only [List.any_cons, Bool.or_assoc] using hhas

/-- With the lists of the build `load_plugins` aborts just when a module is missing. When all
modules are found the registry is what the start-up takes it for, whatever the order of the
lists, also when a module is there twice. -/
theorem loadPlugins_holds (l : Linker) (builtin default : List Module) :
    let comma := bytes ","
    let loaded := loadPlugins l (comma.intercalate (builtin.map Module.name))
      (comma.intercalate (default.map Module.name)) {}
    (loaded = none ↔ (∃ m ∈ builtin, l.find none m.name = none) ∨
      ∃ m ∈ default, l.find (some (pluginLibName m.name)) m.name = none) ∧
    ((∀ m ∈ builtin, l.find none m.name = some m.definition) →
      (∀ m ∈ default, l.find (some (pluginLibName m.name)) m.name = some m.definition) →
      ∃ r, loaded = some r ∧ r.loadedPluginNames = (builtin ++ default).map Module.name ∧
        r.Holds ⟨fun p => (builtin ++ default).any fun m => m.plugins.contains p⟩) := by
  intro comma loaded
  have htokens : ∀ ms : List Module,
      tokenize (comma.intercalate (ms.map Module.name)) comma true = ms.map Module.name := by
    intro ms
    refine tokenize_intercalate fun name hname => ?_
    obtain ⟨m, -, rfl⟩ := List.mem_map.mp hname
    exact m.name_valid
  have hloaded : loaded = ((builtin.map Module.name).foldlM
      (fun r name => loadPlugin l none name r) {}).bind fun r =>
        (default.map Module.name).foldlM
          (fun r name => loadPlugin l (some (pluginLibName name)) name r) r := by
    change loadPlugins _ _ _ _ = _
    rw [loadPlugins, htokens, htokens]
    rfl
  have hnames : ∀ (ms : List Module) (P : Bytes → Prop),
      (∃ name ∈ ms.map Module.name, P name) ↔ ∃ m ∈ ms, P m.name := by
    intro ms P
    simp
  constructor
  · have hbuiltin := loadPlugin_eq_none_iff (l := l) (fun _ => none)
      (builtin.map Module.name) {}
    rw [hnames] at hbuiltin
    rw [hloaded]
    cases hfirst : (builtin.map Module.name).foldlM (fun r name => loadPlugin l none name r) {} with
    | none => exact iff_of_true rfl (Or.inl (hbuiltin.mp hfirst))
    | some r =>
        have hfound : ¬∃ m ∈ builtin, l.find none m.name = none := by
          rw [← hbuiltin, hfirst]
          exact Option.some_ne_none r
        rw [or_iff_right hfound, ← hnames default fun name =>
          l.find (some (pluginLibName name)) name = none]
        exact loadPlugin_eq_none_iff _ _ r
  · intro hbuiltin hdefault
    obtain ⟨r, hfirst, hnames, hhas⟩ := loadModules (fun _ => none) hbuiltin
      PluginRegistry.has_empty
    obtain ⟨r', hsecond, hnames', hhas'⟩ := loadModules
      (fun name => some (pluginLibName name)) hdefault hhas
    refine ⟨r', ?_, ?_, ?_⟩
    · rw [hloaded, hfirst]
      exact hsecond
    · rw [hnames', hnames, List.map_append]
      rfl
    · simpa only [List.any_append, Bool.false_or] using hhas'.holds

/-- A program that all modules are linked into, and no libraries. -/
def staticLinker : Linker where
  Handle := Unit
  dlopen soFile := if soFile = none then some () else none
  dlsym _ symbol :=
    ([.errorReport, .fullReport, .generalLog, .mysqlClient, .nullDbclient, .queryLog, .simpleReport,
      .threadPerConnection, .threadPool] : List Module).find?
        (fun m => pluginDeclSym m.name = symbol) |>.map Module.definition

/-- The query log's module linked in, whose two plugins are found under their kinds. -/
theorem loadPlugins_holds_sample : ∃ r,
    loadPlugins staticLinker (bytes "query_log") (bytes "") {} = some r ∧
      (r.ofKind .input)["query-log"]? = some .queryLog ∧
      (r.ofKind .report)["query-log-report"]? = some .queryLogReport := by
  obtain ⟨r, hloaded, -, hholds⟩ := (loadPlugins_holds staticLinker [.queryLog] []).2
    (List.forall_mem_singleton.mpr rfl) (by simp)
  exact ⟨r, hloaded, hholds.find .input "query-log", hholds.find .report "query-log-report"⟩

end Loaded

end QueryPlayback.Startup
