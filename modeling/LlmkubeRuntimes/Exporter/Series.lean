import Mathlib.Data.Rat.Defs
import LlmkubeRuntimes.Exporter.Collect

/-!
# Duplicate series

A sample line is identified by its name and its label set. Every metric of a
device carries its card, and only sensors can share a name within a card.

* `SensorFile`: a file that yields a sensor metric, by what tells its series
  from others: the prefix of its name, its sensor label and its kind;
* `Collide`: two sensor files of a card with one series;
* `noDuplicateSeries_iff`: the exposition has no duplicate exactly when no card
  has two sensor files that collide.
-/

namespace LlmkubeRuntimes.Exporter

open LlmkubeRuntimes.Lib

variable {V : Type}

/-! ## Sample lines -/

def Metric.series (m : Metric V) : String × Labels := (m.name, m.labels)

theorem fullName_injective : Function.Injective fullName := fun a b h => by
  have he := congrArg String.toList h
  simp only [fullName, String.toList_append, List.append_cancel_left_eq] at he
  exact String.toList_injective he

theorem series_writeLines (seen : List String) (ms : List (Metric V)) :
    (writeLines seen ms).filterMap Line.series? = ms.map fun m => (fullName m.name, m.labels) := by
  induction ms generalizing seen with
  | nil => rfl
  | cons m ms ih =>
    have hsample : ∀ rest : List (Line V),
        (Line.sample (fullName m.name) m.labels m.value :: rest).filterMap Line.series? =
          (fullName m.name, m.labels) :: rest.filterMap Line.series? :=
      fun rest => List.filterMap_cons_some rfl
    rw [writeLines]
    split
    · rw [hsample, ih, List.map_cons]
    · rw [List.filterMap_cons_none rfl, List.filterMap_cons_none rfl, hsample, ih, List.map_cons]

/-- The sample lines are the metrics. -/
theorem noDuplicateSeries_writeMetrics (ms : List (Metric V)) :
    NoDuplicateSeries (writeMetrics ms) ↔ (ms.map Metric.series).Nodup := by
  have hinj : Function.Injective fun s : String × Labels => (fullName s.1, s.2) := by
    rintro ⟨n, l⟩ ⟨n', l'⟩ h
    simp only [Prod.mk.injEq] at h
    rw [fullName_injective h.1, h.2]
  have hmap : ∀ ms : List (Metric V), (ms.map fun m => (fullName m.name, m.labels)) =
      (ms.map Metric.series).map fun s => (fullName s.1, s.2) := fun ms => by
    rw [List.map_map]
    rfl
  rw [NoDuplicateSeries, writeMetrics, series_writeLines, hmap, List.nodup_map_iff hinj]
  exact ((List.perm_insertionSort _ ms).map _).nodup_iff

/-! ## Labels -/

theorem lookup_baseLabels_card (dev : Device) :
    Finmap.lookup "card" (baseLabels dev) = some dev.card := by
  rw [baseLabels, Finmap.lookup_insert_of_ne _ (by decide), Finmap.lookup_insert]

theorem lookup_infoLabels_card {dev : Device} (h : ∀ kv ∈ dev.static, kv.1 ≠ "card") :
    Finmap.lookup "card" (infoLabels dev) = some dev.card := by
  have key : ∀ (static : List (String × String)) (labels : Labels),
      (∀ kv ∈ static, kv.1 ≠ "card") → Finmap.lookup "card" labels = some dev.card →
      Finmap.lookup "card" (static.foldl
        (fun labels kv => if kv.2 ≠ "" then labels.insert kv.1 kv.2 else labels) labels) =
        some dev.card := by
    intro static
    induction static with
    | nil => exact fun labels _ hl => hl
    | cons kv static ih =>
      intro labels hne hl
      refine ih _ (fun kv' hkv' => hne kv' (List.mem_cons_of_mem _ hkv')) ?_
      beta_reduce
      split
      · rw [Finmap.lookup_insert_of_ne _ (hne kv List.mem_cons_self).symm, hl]
      · exact hl
  exact key _ _ h (lookup_baseLabels_card dev)

/-! ## Sensor files -/

structure SensorFile where
  pre : String
  kind : String
  sensor : String
  deriving DecidableEq, Repr

/-- Two sensor files of a card that yield one series: the same quantity under
the same sensor label, and for power of the same kind. -/
def Collide (a b : SensorFile) : Prop :=
  a.pre = b.pre ∧ a.sensor = b.sensor ∧ (a.pre = "power" → a.kind = b.kind)

/-- The kinds that yield a metric under a prefix. -/
def accepts (pre kind : String) : Bool :=
  pre ∈ ["temp", "power"] || (pre ∈ ["fan", "pwm", "freq", "in"] && kind == "input")

/-- The leaf `file` below `hwmonDir` as a sensor file: its name has an accepted
form and its content is a number. -/
def sensorFile (floats : Floats V) (fs : Sysfs) (hwmonDir : List String)
    (file : String × Option String) : Option SensorFile :=
  (hwmonValueRe file.1).bind fun (pre, index, kind) =>
    let kind := if kind = "" then "input" else kind
    if kind ∈ kinds ∧ accepts pre kind ∧ (file.2.bind fun s => floats.parse (trimSpace s)).isSome then
      some ⟨pre, kind, sensorLabel fs hwmonDir pre index⟩
    else none

/-- The sensor files of a device. -/
def sensorFiles (floats : Floats V) (fs : Sysfs) (dev : Device) : List SensorFile :=
  (hwmonDirs fs dev).flatMap fun name =>
    (fs.walkDir (dev.path ++ ["hwmon"]) name).filterMap
      (sensorFile floats fs (dev.path ++ ["hwmon", name]))

/-- The metric names of the sensor prefixes. -/
def sensorNames : List (String × String) := [("temp", "temperature_celsius"), ("power", "power_watts"),
  ("fan", "fan_rpm"), ("pwm", "fan_pwm"), ("freq", "clock_hertz"), ("in", "voltage_volts")]

/-- The series a sensor file yields. -/
def SensorFile.series (dev : Device) (f : SensorFile) : String × Labels :=
  let labels := (baseLabels dev).insert "sensor" f.sensor
  ((sensorNames.lookup f.pre).getD "", if f.pre = "power" then labels.insert "type" f.kind else labels)

section Device

variable (floats : Floats V) (fs : Sysfs) (dev : Device)

/-- What `hwmonMetric` returns for an accepted sensor, and that it rejects others. -/
theorem hwmonMetric_spec (hwmonDir : List String) (pre index kind : String) :
    (hwmonMetric fs dev hwmonDir pre index kind).map (fun m => (m.1, m.2.2.1)) =
      if accepts pre kind then
        some ((SensorFile.mk pre kind (sensorLabel fs hwmonDir pre index)).series dev)
      else none := by
  by_cases hpre : pre ∈ ["temp", "power", "fan", "pwm", "freq", "in"]
  · simp only [List.mem_cons, List.not_mem_nil, or_false] at hpre
    rcases hpre with rfl | rfl | rfl | rfl | rfl | rfl <;>
      by_cases hk : kind = "input" <;>
        simp [hwmonMetric, hk, accepts, SensorFile.series, sensorNames, List.lookup_cons]
  · simp only [List.mem_cons, List.not_mem_nil, or_false, not_or] at hpre
    obtain ⟨h1, h2, h3, h4, h5, h6⟩ := hpre
    simp [hwmonMetric, h1, h2, h3, h4, h5, h6, accepts]

theorem readFloat_isSome (content : Option String) (divisor : Nat) :
    (readFloat floats content divisor).isSome =
      (content.bind fun s => floats.parse (trimSpace s)).isSome := by
  cases content <;> simp [readFloat]

/-- A leaf yields a metric exactly if it is a sensor file, and the series is the file's. -/
theorem hwmonFile_series (hwmonDir : List String) (file : String × Option String) :
    (hwmonFile floats fs dev hwmonDir file).map Metric.series =
      (sensorFile floats fs hwmonDir file).map (SensorFile.series dev) := by
  unfold hwmonFile sensorFile
  cases hwmonValueRe file.1 with
  | none => rfl
  | some groups =>
    obtain ⟨pre, index, kind⟩ := groups
    simp only [Option.bind_some]
    generalize (if kind = "" then "input" else kind) = kind
    by_cases hk : kind ∈ kinds
    · have hspec := hwmonMetric_spec fs dev hwmonDir pre index kind
      rw [if_pos hk]
      cases hm : hwmonMetric fs dev hwmonDir pre index kind with
      | none =>
        rw [hm] at hspec
        have hno : ¬ accepts pre kind := fun h => by simp [h] at hspec
        simp [hno]
      | some m =>
        obtain ⟨name, help, labels, divisor⟩ := m
        rw [hm] at hspec
        have hyes : accepts pre kind := by
          by_contra h
          simp [h] at hspec
        simp only [Option.map_some, hyes, if_true, Option.some.injEq] at hspec
        have hread := readFloat_isSome floats file.2 divisor
        cases hv : readFloat floats file.2 divisor with
        | none =>
          rw [hv] at hread
          simp [hv, ← hread]
        | some v =>
          rw [hv] at hread
          simp [hv, hk, hyes, ← hread, Metric.series, hspec]
    · simp [hk]

theorem collectHwmon_series : (collectHwmon floats fs dev).map Metric.series =
    (sensorFiles floats fs dev).map (SensorFile.series dev) := by
  unfold collectHwmon sensorFiles
  rw [List.map_flatMap, List.map_flatMap]
  refine congrArg (List.flatMap · _) (funext fun name => ?_)
  rw [List.map_filterMap, List.map_filterMap]
  exact congrArg (List.filterMap · _) (funext fun file => hwmonFile_series floats fs dev _ file)

theorem sensorFile_accepts {hwmonDir : List String} {file : String × Option String} {f : SensorFile}
    (h : sensorFile floats fs hwmonDir file = some f) : accepts f.pre f.kind := by
  simp only [sensorFile, Option.bind_eq_some_iff, Option.ite_none_right_eq_some,
    Option.some.injEq] at h
  obtain ⟨_, -, ⟨-, hacc, -⟩, rfl⟩ := h
  exact hacc

theorem mem_sensorFiles {f : SensorFile} (h : f ∈ sensorFiles floats fs dev) :
    accepts f.pre f.kind := by
  obtain ⟨name, -, hf⟩ := List.mem_flatMap.1 h
  obtain ⟨file, -, hfile⟩ := List.mem_filterMap.1 hf
  exact sensorFile_accepts floats fs hfile

variable {floats fs dev}

theorem lookup_series_card (f : SensorFile) :
    Finmap.lookup "card" (f.series dev).2 = some dev.card := by
  unfold SensorFile.series
  dsimp only
  split
  · rw [Finmap.lookup_insert_of_ne _ (by decide), Finmap.lookup_insert_of_ne _ (by decide),
      lookup_baseLabels_card]
  · rw [Finmap.lookup_insert_of_ne _ (by decide), lookup_baseLabels_card]

theorem lookup_series_sensor (f : SensorFile) :
    Finmap.lookup "sensor" (f.series dev).2 = some f.sensor := by
  unfold SensorFile.series
  dsimp only
  split
  · rw [Finmap.lookup_insert_of_ne _ (by decide), Finmap.lookup_insert]
  · rw [Finmap.lookup_insert]

theorem lookup_series_type {f : SensorFile} (h : f.pre = "power") :
    Finmap.lookup "type" (f.series dev).2 = some f.kind := by
  unfold SensorFile.series
  dsimp only
  rw [if_pos h, Finmap.lookup_insert]

theorem accepts_mem {pre kind : String} (h : accepts pre kind) : pre ∈ sensorNames.map Prod.fst := by
  simp [accepts] at h
  simp [sensorNames]
  tauto

/-- **Two sensor files yield one series exactly if they collide.** -/
theorem series_eq_iff {f g : SensorFile} (hf : accepts f.pre f.kind) (hg : accepts g.pre g.kind) :
    f.series dev = g.series dev ↔ Collide f g := by
  have hname : ∀ p ∈ sensorNames.map Prod.fst, ∀ q ∈ sensorNames.map Prod.fst,
      (sensorNames.lookup p).getD "" = (sensorNames.lookup q).getD "" → p = q := by decide
  constructor
  · intro h
    have hpre : f.pre = g.pre := hname _ (accepts_mem hf) _ (accepts_mem hg) (congrArg Prod.fst h)
    have hsensor : some f.sensor = some g.sensor := by
      rw [← @lookup_series_sensor dev f, h, lookup_series_sensor]
    refine ⟨hpre, Option.some.inj hsensor, fun hp => ?_⟩
    have hkind : some f.kind = some g.kind := by
      rw [← @lookup_series_type dev f hp, h, lookup_series_type (hpre ▸ hp)]
    exact Option.some.inj hkind
  · rintro ⟨hpre, hsensor, hkind⟩
    unfold SensorFile.series
    dsimp only
    rw [← hpre, ← hsensor]
    split
    next hp => rw [hkind hp]
    next => rfl

/-! ## The metrics of one device -/

theorem simpleReads_names : simpleReads.Pairwise fun a b => a.metricName ≠ b.metricName := by decide

theorem mem_simple {m : Metric V} (h : m ∈ simpleReads.filterMap (readSimple floats fs dev)) :
    m.name ∈ simpleReads.map SimpleRead.metricName ∧ m.labels = baseLabels dev := by
  obtain ⟨r, hr, hm⟩ := List.mem_filterMap.1 h
  obtain ⟨v, -, rfl⟩ := Option.map_eq_some_iff.1 hm
  exact ⟨List.mem_map_of_mem hr, rfl⟩

theorem mem_collectHwmon {m : Metric V} (h : m ∈ collectHwmon floats fs dev) :
    m.name ∈ sensorNames.map Prod.snd ∧ Finmap.lookup "card" m.labels = some dev.card := by
  have hs : m.series ∈ (sensorFiles floats fs dev).map (SensorFile.series dev) := by
    rw [← collectHwmon_series]
    exact List.mem_map_of_mem h
  obtain ⟨f, hf, heq⟩ := List.mem_map.1 hs
  have hnames : ∀ p ∈ sensorNames.map Prod.fst,
      (sensorNames.lookup p).getD "" ∈ sensorNames.map Prod.snd := by decide
  constructor
  · rw [show m.name = (f.series dev).1 from congrArg Prod.fst heq.symm]
    exact hnames _ (accepts_mem (mem_sensorFiles floats fs dev hf))
  · rw [show m.labels = (f.series dev).2 from congrArg Prod.snd heq.symm]
    exact lookup_series_card f

/-- Every metric of a device carries its card. -/
theorem card_deviceMetrics (hstatic : ∀ kv ∈ dev.static, kv.1 ≠ "card") {m : Metric V}
    (h : m ∈ deviceMetrics floats fs dev) : Finmap.lookup "card" m.labels = some dev.card := by
  rcases List.mem_cons.1 h with rfl | h
  · exact lookup_infoLabels_card hstatic
  rcases List.mem_append.1 h with h | h
  · rw [(mem_simple h).2, lookup_baseLabels_card]
  · exact (mem_collectHwmon h).2

/-- Within a device, only sensors can share a series. -/
theorem nodup_deviceMetrics : ((deviceMetrics floats fs dev).map Metric.series).Nodup ↔
    (sensorFiles floats fs dev).Pairwise fun f g => ¬ Collide f g := by
  have hinfo : ∀ m ∈ simpleReads.filterMap (readSimple floats fs dev) ++ collectHwmon floats fs dev,
      m.name ≠ "gpu_info" := by
    intro m hm
    rcases List.mem_append.1 hm with hm | hm
    · have : ∀ n ∈ simpleReads.map SimpleRead.metricName, n ≠ "gpu_info" := by decide
      exact this _ (mem_simple hm).1
    · have : ∀ n ∈ sensorNames.map Prod.snd, n ≠ "gpu_info" := by decide
      exact this _ (mem_collectHwmon hm).1
  have hsimple : ((simpleReads.filterMap (readSimple floats fs dev)).map Metric.series).Nodup := by
    rw [List.Nodup, List.pairwise_map, List.pairwise_filterMap]
    refine simpleReads_names.imp fun {r r'} hne m hm m' hm' hs => hne ?_
    obtain ⟨v, -, rfl⟩ := Option.map_eq_some_iff.1 hm
    obtain ⟨v', -, rfl⟩ := Option.map_eq_some_iff.1 hm'
    exact congrArg Prod.fst hs
  have hdisj : ∀ m ∈ simpleReads.filterMap (readSimple floats fs dev),
      ∀ m' ∈ collectHwmon floats fs dev, m.series ≠ m'.series := by
    intro m hm m' hm' hs
    have hne : ∀ n ∈ simpleReads.map SimpleRead.metricName, n ∉ sensorNames.map Prod.snd := by decide
    have hn : m.name = m'.name := congrArg Prod.fst hs
    exact hne _ (mem_simple hm).1 (hn ▸ (mem_collectHwmon hm').1)
  have hsensors : ((collectHwmon floats fs dev).map Metric.series).Nodup ↔
      (sensorFiles floats fs dev).Pairwise fun f g => ¬ Collide f g := by
    rw [collectHwmon_series, List.Nodup, List.pairwise_map]
    refine List.Pairwise.iff_of_mem fun {f g} hf hg => not_congr ?_
    exact series_eq_iff (mem_sensorFiles floats fs dev hf) (mem_sensorFiles floats fs dev hg)
  rw [deviceMetrics, List.map_cons, List.nodup_cons, List.map_append, List.nodup_append, hsensors]
  constructor
  · exact fun h => h.2.2.1
  · intro h
    refine ⟨fun hmem => ?_, hsimple, h, ?_⟩
    · rw [← List.map_append] at hmem
      obtain ⟨m, hm, heq⟩ := List.mem_map.1 hmem
      exact hinfo m hm (congrArg Prod.fst heq)
    · intro s hs s' hs'
      obtain ⟨m, hm, rfl⟩ := List.mem_map.1 hs
      obtain ⟨m', hm', rfl⟩ := List.mem_map.1 hs'
      exact hdisj m hm m' hm'

end Device

/-! ## The exposition -/

section Exposition

variable {floats : Floats V} {fs : Sysfs}

theorem mem_discoverDevices {devices : List Device} (h : discoverDevices fs = .ok devices) :
    ∀ dev ∈ devices, ∀ kv ∈ dev.static, kv.1 ≠ "card" := by
  intro dev hdev
  unfold discoverDevices at h
  split at h
  next entries _ =>
    cases h
    obtain ⟨entry, -, he⟩ := List.mem_filterMap.1 ((List.mem_insertionSort _).1 hdev)
    simp only [device, Option.ite_none_right_eq_some, Option.bind_eq_some_iff,
      Option.some.injEq] at he
    obtain ⟨-, vendor, -, -, rfl⟩ := he
    simp
  next =>
    cases h
    cases hdev
  next => cases h

/-- **The cards found are distinct.** -/
theorem nodup_cards {devices : List Device} (h : discoverDevices fs = .ok devices) :
    devices.Pairwise fun a b => a.card ≠ b.card := by
  unfold discoverDevices at h
  split at h
  next entries hentries =>
    cases h
    refine ((List.perm_insertionSort _ _).pairwise_iff fun {a b} hab => hab.symm).2 ?_
    rw [List.pairwise_filterMap]
    refine (fs.readDir_nodup hentries).imp fun {e e'} hne d hd d' hd' hcard => hne ?_
    simp only [device, Option.ite_none_right_eq_some, Option.bind_eq_some_iff,
      Option.some.injEq] at hd hd'
    obtain ⟨-, _, -, -, rfl⟩ := hd
    obtain ⟨-, _, -, -, rfl⟩ := hd'
    exact hcard
  next =>
    cases h
    exact List.Pairwise.nil
  next => cases h

/-- No two sensor files of one card collide. -/
def SensorsDistinct (floats : Floats V) (fs : Sysfs) : Prop :=
  ∀ devices, discoverDevices fs = .ok devices → ∀ dev ∈ devices,
    (sensorFiles floats fs dev).Pairwise fun f g => ¬ Collide f g

theorem nodup_collect {version : String} {devices : List Device}
    (hdev : discoverDevices fs = .ok devices) :
    ((headMetrics floats version devices ++ devices.flatMap (deviceMetrics floats fs)).map
        Metric.series).Nodup ↔
      ∀ dev ∈ devices, (sensorFiles floats fs dev).Pairwise fun f g => ¬ Collide f g := by
  have hstatic := mem_discoverDevices hdev
  have hcard : ∀ dev ∈ devices, ∀ s ∈ (deviceMetrics floats fs dev).map Metric.series,
      Finmap.lookup "card" s.2 = some dev.card := by
    intro dev hd s hs
    obtain ⟨m, hm, rfl⟩ := List.mem_map.1 hs
    exact card_deviceMetrics (hstatic dev hd) hm
  have hhead : ((headMetrics floats version devices).map Metric.series).Nodup := by
    simp [headMetrics, Metric.series]
  have hheadCard : ∀ s ∈ (headMetrics floats version devices).map Metric.series,
      Finmap.lookup "card" s.2 = none := by
    simp [headMetrics, Metric.series]
  rw [List.map_append, List.nodup_append, List.map_flatMap, List.nodup_flatMap]
  constructor
  · exact fun h dev hd => nodup_deviceMetrics.1 (h.2.1.1 dev hd)
  · intro h
    refine ⟨hhead, ⟨fun dev hd => nodup_deviceMetrics.2 (h dev hd), ?_⟩, ?_⟩
    · refine (nodup_cards hdev).imp_of_mem fun {a b} ha hb hne s hs hs' => hne ?_
      exact Option.some.inj ((hcard a ha s hs).symm.trans (hcard b hb s hs'))
    · rintro s hs s' hs' rfl
      obtain ⟨dev, hd, hs'⟩ := List.mem_flatMap.1 hs'
      have := (hheadCard s hs).symm.trans (hcard dev hd s hs')
      cases this

/-- **The exposition has no duplicate series exactly when no card has two sensor
files that collide.** -/
theorem noDuplicateSeries_iff (floats : Floats V) (version : String) (fs : Sysfs) :
    NoDuplicateSeries (exposition floats version fs) ↔ SensorsDistinct floats fs := by
  unfold exposition SensorsDistinct
  cases hdev : discoverDevices fs with
  | error e =>
    simp [collect, hdev, noDuplicateSeries_writeMetrics]
  | ok devices =>
    simp only [collect, hdev, noDuplicateSeries_writeMetrics, nodup_collect hdev, Except.ok.injEq,
      forall_eq']

end Exposition

/-! ## Two sensors under one label -/

/-- Whole numbers in decimal. -/
def decimals : Floats Rat where
  parse s :=
    if s ≠ "" ∧ s.toList.all Char.isDigit then some (Nat.ofDigitChars 10 s.toList 0 : Rat) else none
  div v n := v / n
  ofNat n := n

/-- A device with two temperature sensors, both labelled `edge`. -/
def twoEdges : Node :=
  .dir true <| .cons "hwmon" (.dir true <| .cons "hwmon0" (.dir true <|
    .cons "temp1_input" (.file (some "65500\n")) <|
    .cons "temp1_label" (.file (some "edge\n")) <|
    .cons "temp2_input" (.file (some "64000\n")) <|
    .cons "temp2_label" (.file (some "edge\n")) .nil) .nil) <|
  .cons "vendor" (.file (some "0x1002\n")) .nil

def twoEdgesFs : Sysfs where
  root := .dir true <| .cons "class" (.dir true <| .cons "drm" (.dir true <|
    .cons "card0" (.dir true <| .cons "device" twoEdges .nil) .nil) .nil) .nil
  slot _ := "0000:c5:00.0"
  wellFormed := by
    simp only [twoEdges, Node.WellFormed, Entries.WellFormed, Entries.names]
    decide

def edgeDevice : Device := {
  card := "card0"
  path := ["class", "drm", "card0", "device"]
  pciSlot := "0000:c5:00.0"
  static := [("vendor_id", "0x1002"), ("device_id", ""), ("subsystem_vendor_id", ""),
    ("subsystem_device_id", ""), ("revision_id", ""), ("product_name", ""), ("unique_id", "")] }

theorem discover_twoEdges : discoverDevices twoEdgesFs = .ok [edgeDevice] := by rfl

theorem sensorFiles_twoEdges : sensorFiles decimals twoEdgesFs edgeDevice =
    [⟨"temp", "input", "edge"⟩, ⟨"temp", "input", "edge"⟩] := by decide

theorem twoEdges_duplicate : ¬ NoDuplicateSeries (exposition decimals "dev" twoEdgesFs) := by
  have hcollect : exposition decimals "dev" twoEdgesFs = writeMetrics
      (headMetrics decimals "dev" [edgeDevice] ++
        [edgeDevice].flatMap (deviceMetrics decimals twoEdgesFs)) := by
    rw [exposition, collect, discover_twoEdges]
  rw [hcollect, noDuplicateSeries_writeMetrics, nodup_collect discover_twoEdges]
  intro h
  have := h edgeDevice List.mem_cons_self
  rw [sensorFiles_twoEdges] at this
  exact absurd ⟨rfl, rfl, fun _ => rfl⟩ (List.pairwise_pair.1 this)

end LlmkubeRuntimes.Exporter
