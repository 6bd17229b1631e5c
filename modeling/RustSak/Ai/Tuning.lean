import RustSak.Ai.Providers
import RustSak.Ai.Session

/-!
# Tuning

The options that each provider of a rung is attached with: its own baseline, and what the
caller has tuned over it. The maps are in the providers' own keys.
-/

namespace RustSak

namespace Ai

/-- The engines CoreML may dispatch a model to. -/
inductive CoreMlComputeUnits where
  | all
  | cpuAndGpu
  | cpuAndNeuralEngine
  deriving DecidableEq

def CoreMlComputeUnits.asStr : CoreMlComputeUnits → String
  | all => "ALL"
  | cpuAndGpu => "CPUAndGPU"
  | cpuAndNeuralEngine => "CPUAndNeuralEngine"

/-- How CoreML compiles a model for the device. -/
inductive CoreMlSpecialization where
  | default
  | fastPrediction
  deriving DecidableEq

def CoreMlSpecialization.asStr : CoreMlSpecialization → String
  | default => "Default"
  | fastPrediction => "FastPrediction"

inductive ExecutionMode where
  | parallel
  | sequential
  deriving DecidableEq

abbrev Options := Std.TreeMap String String

/-- How a caller tunes one model's sessions. -/
structure Tuning where
  coremlComputeUnits : CoreMlComputeUnits
  coremlSpecialization : CoreMlSpecialization
  executionMode : ExecutionMode
  disableMemPattern : Bool
  disabledOptimizers : List String
  cudaPreferNhwc : Bool
  trtOptions : Options
  webgpuPreferNchw : Bool
  webgpuForceCpuNodes : List String

/-- TensorRT's workspace ceiling: 4 GiB. -/
def trtWorkspaceCeiling : ℕ := 4 * 1073741824

/-- A quarter of the card, at most the ceiling. -/
def trtWorkspaceBytes (deviceMemory : Option ℕ) : ℕ :=
  (deviceMemory.map fun bytes => min (bytes / 4) trtWorkspaceCeiling).getD trtWorkspaceCeiling

def graphCaptureDisabled : String := "0"

/-- The options of the given entries, the later one under a key that is there twice. -/
def optionsFrom (entries : List (String × String)) : Options :=
  Std.TreeMap.ofList entries

section Options

variable {φ : Type} (tuning : Tuning) (display : φ → String) (paths : Sessions.CachePaths φ)

def coremlOptions : Options :=
  optionsFrom [
    ("EnableOnSubgraphs", "0"),
    ("MLComputeUnits", tuning.coremlComputeUnits.asStr),
    ("ModelCacheDirectory", display paths.coreml),
    ("ModelFormat", "MLProgram"),
    ("RequireStaticInputShapes", "1"),
    ("SpecializationStrategy", tuning.coremlSpecialization.asStr)]

def cudaOptions : Options :=
  optionsFrom [
    ("cudnn_conv_algo_search", "EXHAUSTIVE"),
    ("cudnn_conv_use_max_workspace", "1"),
    ("device_id", "0"),
    ("do_copy_in_default_stream", "1"),
    ("enable_cuda_graph", graphCaptureDisabled),
    ("gpu_mem_limit", "0"),
    ("prefer_nhwc", if tuning.cudaPreferNhwc then "1" else "0")]

/-- What TensorRT is attached with before the caller's raw options. -/
def tensorrtBaseline (deviceMemory : Option ℕ) : Options :=
  optionsFrom [
    ("device_id", "0"),
    ("trt_max_workspace_size", toString (trtWorkspaceBytes deviceMemory)),
    ("trt_fp16_enable", "0"),
    ("trt_int8_enable", "0"),
    ("trt_engine_hw_compatible", "0"),
    ("trt_cuda_graph_enable", graphCaptureDisabled),
    ("trt_builder_optimization_level", "5"),
    ("trt_engine_cache_enable", "1"),
    ("trt_engine_cache_path", display paths.tensorrt),
    ("trt_timing_cache_enable", "1"),
    ("trt_timing_cache_path", display paths.timing)]

def tensorrtOptions (deviceMemory : Option ℕ) : Options :=
  (tensorrtBaseline display paths deviceMemory).insertMany tuning.trtOptions.toList

/-- Only what the tuning sets. The plugin splits the node names on newlines. -/
def webgpuOptions : Options :=
  let options : Options := ∅
  let options :=
    if tuning.webgpuPreferNchw then options.insert "preferredLayout" "NCHW" else options
  if tuning.webgpuForceCpuNodes.isEmpty then
    options
  else
    options.insert "forceCpuNodeNames" ("\n".intercalate tuning.webgpuForceCpuNodes)

/-- The options `provider` is attached with. -/
def providerOptions (provider : ExecutionProvider) (deviceMemory : Option ℕ) : Options :=
  match provider with
  | .auto | .cpu => ∅
  | .coreMl => coremlOptions tuning display paths
  | .cuda => cudaOptions tuning
  | .tensorRt => tensorrtOptions tuning display paths deviceMemory
  | .webGpu => webgpuOptions tuning

/-- A raw option stands as the caller gave it, and the baseline under every other key. -/
theorem tensorrtOptions_getElem? (deviceMemory : Option ℕ) (key : String) :
    (tensorrtOptions tuning display paths deviceMemory)[key]? =
      (tuning.trtOptions[key]?).or (tensorrtBaseline display paths deviceMemory)[key]? := by
  unfold tensorrtOptions
  cases hraw : tuning.trtOptions[key]? with
  | none =>
      have hkey : key ∉ tuning.trtOptions := by
        rw [Std.TreeMap.mem_iff_isSome_getElem?, hraw]
        exact Bool.false_ne_true
      rw [Option.none_or]
      apply Std.TreeMap.getElem?_insertMany_list_of_contains_eq_false
      rw [Std.TreeMap.map_fst_toList_eq_keys, List.contains_eq_mem, decide_eq_false_iff_not,
        Std.TreeMap.mem_keys]
      exact hkey
  | some value =>
      have hmem : (key, value) ∈ tuning.trtOptions.toList :=
        Std.TreeMap.mem_toList_iff_getElem?_eq_some.mpr hraw
      have hself : compare key key = .eq := Std.ReflCmp.compare_self
      rw [Option.some_or]
      exact Std.TreeMap.getElem?_insertMany_list_of_mem hself
        Std.TreeMap.distinct_keys_toList hmem

end Options

/-- The workspace that TensorRT is told of is never more than a quarter of the card. -/
theorem trtWorkspaceBytes_le (bytes : ℕ) :
    trtWorkspaceBytes (some bytes) ≤ bytes / 4 ∧
      trtWorkspaceBytes (some bytes) ≤ trtWorkspaceCeiling :=
  ⟨Nat.min_le_left _ _, Nat.min_le_right _ _⟩

/-- The session-level settings, as the builder calls that carry them. -/
structure SessionSettings where
  parallel : Bool
  memPattern : Bool
  disabledOptimizers : Option String
  deriving DecidableEq

/-- The settings `tuning` asks for. Empty optimizer names are dropped. -/
def SessionSettings.of (tuning : Tuning) : SessionSettings :=
  let names := tuning.disabledOptimizers.filter fun name => !name.isEmpty
  { parallel := tuning.executionMode = .parallel
    memPattern := !tuning.disableMemPattern
    disabledOptimizers := if names.isEmpty then none else some (";".intercalate names) }

end Ai

end RustSak
