import Mathlib.Data.Finmap
import LlmkubeRuntimes.Exporter.Sysfs

/-!
# The amdgpu exporter

`collect` reads the devices and their sensors from sysfs, `writeMetrics` turns
the metrics into the lines of the exposition.

* `Floats`: the floating-point numbers, a parameter;
* `hwmonValueRe`, `cardNameRe`: the two regular expressions;
* `collectHwmon`: one metric for each readable sensor file below the `hwmon*`
  directories of a device;
* `Line`: a line of the exposition; a sample line has a name and a label set.
-/

namespace LlmkubeRuntimes.Exporter

open LlmkubeRuntimes.Lib

/-- `map[string]string`. -/
abbrev Labels := Finmap fun _ : String => String

/-- What the exporter does with numbers. -/
structure Floats (V : Type) where
  /-- `strconv.ParseFloat(s, 64)`. -/
  parse : String → Option V
  div : V → Nat → V
  ofNat : Nat → V

structure Metric (V : Type) where
  name : String
  help : String
  type_ : String
  labels : Labels
  value : V

structure Device where
  card : String
  path : List String
  pciSlot : String
  static : List (String × String)

/-! ## Devices -/

/-- The text between its spaces, joined by single blanks. -/
def cleanLabel (value : String) : String := " ".intercalate (fields (trimSpace value))

/-- `strings.EqualFold`, for a text whose only letters are ASCII ones. -/
def equalFold (s t : String) : Bool := s.toList.map Char.toLower = t.toList.map Char.toLower

def cardNameRe (name : String) : Bool :=
  match "card".toList.isPrefixOf? name.toList with
  | some digits => digits ≠ [] && digits.all Char.isDigit
  | none => false

def readStatic (fs : Sysfs) (dir : List String) (name : String) : String :=
  match fs.readTextFile (dir ++ [name]) with
  | some value => cleanLabel value
  | none => ""

/-- The device of a directory entry, if it is a card of the vendor. -/
def device (fs : Sysfs) (entry : String) : Option Device :=
  if cardNameRe entry then
    let devPath := ["class", "drm", entry, "device"]
    (fs.readTextFile (devPath ++ ["vendor"])).bind fun vendor =>
      if equalFold (trimSpace vendor) "0x1002" then
        some {
          card := entry
          path := devPath
          pciSlot := fs.slot entry
          static := [
            ("vendor_id", cleanLabel vendor),
            ("device_id", readStatic fs devPath "device"),
            ("subsystem_vendor_id", readStatic fs devPath "subsystem_vendor"),
            ("subsystem_device_id", readStatic fs devPath "subsystem_device"),
            ("revision_id", readStatic fs devPath "revision"),
            ("product_name", readStatic fs devPath "product_name"),
            ("unique_id", readStatic fs devPath "unique_id")] }
      else none
  else none

def discoverDevices (fs : Sysfs) : Except PathError (List Device) :=
  match fs.readDir ["class", "drm"] with
  | .ok entries => .ok ((entries.filterMap (device fs)).insertionSort fun a b => a.card ≤ b.card)
  | .error .notExist => .ok []
  | .error .other => .error .other

/-! ## Metrics of a device -/

section Metrics

variable {V : Type} (floats : Floats V) (fs : Sysfs) (dev : Device)

def baseLabels : Labels := ((∅ : Labels).insert "card" dev.card).insert "pci_slot" dev.pciSlot

/-- `readFloatFile`, once the file is read. -/
def readFloat (content : Option String) (divisor : Nat) : Option V :=
  content.bind fun data => (floats.parse (trimSpace data)).map fun value => floats.div value divisor

/-- The arguments of one call of `readSimple`. -/
structure SimpleRead where
  sysfsName : String
  metricName : String
  help : String
  divisor : Nat
  type_ : String

def readSimpleGauge (sysfsName metricName help : String) (divisor : Nat) : SimpleRead :=
  ⟨sysfsName, metricName, help, divisor, "gauge"⟩

def readSimpleCounter (sysfsName metricName help : String) (divisor : Nat) : SimpleRead :=
  ⟨sysfsName, metricName, help, divisor, "counter"⟩

def readSimple (r : SimpleRead) : Option (Metric V) :=
  (readFloat floats (fs.readTextFile (dev.path ++ [r.sysfsName])) r.divisor).map fun value =>
    ⟨r.metricName, r.help, r.type_, baseLabels dev, value⟩

/-- The calls `collect` makes for each device, in order. -/
def simpleReads : List SimpleRead := [
  readSimpleGauge "gpu_busy_percent" "gpu_busy_percent" "Current GPU busy percentage." 1,
  readSimpleGauge "mem_busy_percent" "memory_busy_percent" "Current memory busy percentage." 1,
  readSimpleGauge "mem_info_vram_used" "vram_used_bytes" "Currently used VRAM bytes." 1,
  readSimpleGauge "mem_info_vram_total" "vram_total_bytes" "Total available VRAM bytes." 1,
  readSimpleGauge "mem_info_vis_vram_used" "visible_vram_used_bytes"
    "Currently used visible VRAM bytes." 1,
  readSimpleGauge "mem_info_vis_vram_total" "visible_vram_total_bytes" "Total visible VRAM bytes." 1,
  readSimpleGauge "mem_info_gtt_used" "gtt_used_bytes" "Currently used GTT bytes." 1,
  readSimpleGauge "mem_info_gtt_total" "gtt_total_bytes" "Total GTT bytes." 1,
  readSimpleCounter "pcie_replay_count" "pcie_replay_total"
    "Total PCIe replay count reported by amdgpu." 1]

/-- The labels of `gpu_info`: the static ones that are not empty are added. -/
def infoLabels : Labels :=
  dev.static.foldl (fun labels kv => if kv.2 ≠ "" then labels.insert kv.1 kv.2 else labels)
    (baseLabels dev)

def gpuInfo : Metric V :=
  ⟨"gpu_info", "Static AMDGPU device information. Value is always 1.", "gauge", infoLabels dev,
    floats.ofNat 1⟩

/-! ### Sensors -/

def isLower (c : Char) : Bool := 'a' ≤ c && c ≤ 'z'

/-- The groups of `^([a-z]+)([0-9]+)(?:_([a-z_]+))?$`; the third is empty if absent. -/
def hwmonValueRe (name : String) : Option (String × String × String) :=
  let pre := name.toList.takeWhile isLower
  let rest := name.toList.dropWhile isLower
  let index := rest.takeWhile Char.isDigit
  if pre = [] ∨ index = [] then none
  else
    match rest.dropWhile Char.isDigit with
    | [] => some (String.ofList pre, String.ofList index, "")
    | '_' :: kind =>
      if kind ≠ [] ∧ kind.all fun c => isLower c || c == '_' then
        some (String.ofList pre, String.ofList index, String.ofList kind)
      else none
    | _ => none

def kinds : List String := ["input", "average", "cap", "cap_min", "cap_max"]

/-- The `sensor` label: the sensor's label file if it can be read, else its index. -/
def sensorLabel (hwmonDir : List String) (pre index : String) : String :=
  match fs.readTextFile (hwmonDir ++ [pre ++ index ++ "_label"]) with
  | some label => cleanLabel label
  | none => index

/-- Name, help, labels and divisor of a sensor's metric. -/
def hwmonMetric (hwmonDir : List String) (pre index kind : String) :
    Option (String × String × Labels × Nat) :=
  let labels := (baseLabels dev).insert "sensor" (sensorLabel fs hwmonDir pre index)
  match pre with
  | "temp" =>
    some ("temperature_celsius", "AMDGPU temperature sensor value in celsius.", labels, 1000)
  | "power" =>
    some ("power_watts", "AMDGPU power sensor value in watts.", labels.insert "type" kind, 1000000)
  | "fan" =>
    if kind = "input" then some ("fan_rpm", "AMDGPU fan speed in RPM.", labels, 1) else none
  | "pwm" =>
    if kind = "input" then some ("fan_pwm", "AMDGPU fan PWM value.", labels, 1) else none
  | "freq" =>
    if kind = "input" then some ("clock_hertz", "AMDGPU clock sensor value in hertz.", labels, 1)
    else none
  | "in" =>
    if kind = "input" then some ("voltage_volts", "AMDGPU voltage sensor value in volts.", labels, 1000)
    else none
  | _ => none

/-- The body of the walk on one leaf. -/
def hwmonFile (hwmonDir : List String) (file : String × Option String) : Option (Metric V) :=
  (hwmonValueRe file.1).bind fun (pre, index, kind) =>
    let kind := if kind = "" then "input" else kind
    if kind ∈ kinds then
      (hwmonMetric fs dev hwmonDir pre index kind).bind fun (name, help, labels, divisor) =>
        (readFloat floats file.2 divisor).map fun value => ⟨name, help, "gauge", labels, value⟩
    else none

/-- The names `hwmon*` matches in the device's `hwmon` directory. -/
def hwmonDirs : List String :=
  match fs.readDir (dev.path ++ ["hwmon"]) with
  | .ok names => names.filter fun name => "hwmon".toList.isPrefixOf name.toList
  | .error _ => []

def collectHwmon : List (Metric V) :=
  (hwmonDirs fs dev).flatMap fun name =>
    (fs.walkDir (dev.path ++ ["hwmon"]) name).filterMap
      (hwmonFile floats fs dev (dev.path ++ ["hwmon", name]))

def deviceMetrics : List (Metric V) :=
  gpuInfo floats dev ::
    (simpleReads.filterMap (readSimple floats fs dev) ++ collectHwmon floats fs dev)

end Metrics

/-! ## The exposition -/

section Exposition

variable {V : Type} (floats : Floats V)

/-- The metrics before the first device. -/
def headMetrics (version : String) (devices : List Device) : List (Metric V) := [
  ⟨"gpus_discovered", "Number of AMDGPU DRM card devices discovered under sysfs.", "gauge", ∅,
    floats.ofNat devices.length⟩,
  ⟨"build_info", "Build information for amdgpu-exporter. Value is always 1.", "gauge",
    (∅ : Labels).insert "version" version, floats.ofNat 1⟩]

def collect (version : String) (fs : Sysfs) : Except PathError (List (Metric V)) :=
  match discoverDevices fs with
  | .ok devices =>
    .ok (headMetrics floats version devices ++ devices.flatMap (deviceMetrics floats fs))
  | .error e => .error e

/-- `namespace + "_" + m.name`. -/
def fullName (name : String) : String := "amdgpu" ++ "_" ++ name

inductive Line (V : Type) where
  | help (name text : String)
  | type (name type_ : String)
  | sample (name : String) (labels : Labels) (value : V)

/-- The loop of `writeMetrics`. -/
def writeLines (seen : List String) : List (Metric V) → List (Line V)
  | [] => []
  | m :: ms =>
    let sample := Line.sample (fullName m.name) m.labels m.value
    if fullName m.name ∈ seen then sample :: writeLines seen ms
    else
      .help (fullName m.name) m.help :: .type (fullName m.name) m.type_ :: sample ::
        writeLines (fullName m.name :: seen) ms

def writeMetrics (metrics : List (Metric V)) : List (Line V) :=
  writeLines [] (metrics.insertionSort fun a b => a.name ≤ b.name)

/-- `collect` followed by `writeMetrics`; there are no metrics when `collect` fails. -/
def exposition (version : String) (fs : Sysfs) : List (Line V) :=
  match collect floats version fs with
  | .ok metrics => writeMetrics metrics
  | .error _ => writeMetrics []

/-- The name and the label set of a sample line. -/
def Line.series? : Line V → Option (String × Labels)
  | .sample name labels _ => some (name, labels)
  | _ => none

/-- No two sample lines have one name and one label set. -/
def NoDuplicateSeries (lines : List (Line V)) : Prop := (lines.filterMap Line.series?).Nodup

end Exposition

end LlmkubeRuntimes.Exporter
