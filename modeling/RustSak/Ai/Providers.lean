import RustSak.Library.Distinct
import RustSak.Library.Text

/-!
# Execution providers

The providers that a session can be asked for, which of them a machine offers, and the
ladder of rungs that a request becomes. Each rung is what is left of the chain of wanted
accelerators once the first few are given up.
-/

namespace RustSak

namespace Ai

open Library Library.Text

/-- An execution provider a session can be asked for. -/
inductive ExecutionProvider where
  | auto
  | cpu
  | coreMl
  | cuda
  | tensorRt
  | webGpu
  deriving DecidableEq

namespace ExecutionProvider

/-- Every provider, in the order a user is most likely to reach for one. -/
def all : List ExecutionProvider := [auto, cpu, coreMl, cuda, tensorRt, webGpu]

theorem mem_all (provider : ExecutionProvider) : provider ∈ all := by
  cases provider <;> simp [all]

def asStr : ExecutionProvider → String
  | auto => "Auto"
  | cpu => "CPU"
  | coreMl => "CoreML"
  | cuda => "CUDA"
  | tensorRt => "TensorRT"
  | webGpu => "WebGPU"

/-- Whether this is hardware a session attaches. -/
def isAccelerator (provider : ExecutionProvider) : Bool :=
  !(provider == auto || provider == cpu)

/-- The provider `text` names, ignoring case, or the text that names none. -/
def fromStr (text : String) : Except String ExecutionProvider :=
  ((all.find? fun provider => eqIgnoreAsciiCase provider.asStr.toList text.toList).map
    Except.ok).getD (.error text)

/-- Two providers' names differ by more than their case. -/
theorem asStr_apart {provider other : ExecutionProvider}
    (h : eqIgnoreAsciiCase provider.asStr.toList other.asStr.toList = true) :
    provider = other := by
  cases provider <;> cases other <;> first | rfl | exact absurd h (by decide)

/-- A name is read as the one provider that spells it so, whatever its case. -/
theorem fromStr_eq_ok {text : String} {provider : ExecutionProvider} :
    fromStr text = .ok provider ↔
      eqIgnoreAsciiCase provider.asStr.toList text.toList = true := by
  unfold fromStr
  cases hfind : all.find? fun provider => eqIgnoreAsciiCase provider.asStr.toList text.toList with
  | none =>
      have hnone := List.find?_eq_none.mp hfind provider (mem_all provider)
      simp [Bool.eq_false_iff.mpr hnone]
  | some found =>
      have hfound : eqIgnoreAsciiCase found.asStr.toList text.toList = true := by
        simpa using List.find?_some hfind
      simp only [Option.map_some, Option.getD_some, Except.ok.injEq]
      constructor
      · rintro rfl
        exact hfound
      · intro hprovider
        refine asStr_apart ?_
        unfold eqIgnoreAsciiCase at hfound hprovider ⊢
        rw [beq_iff_eq] at hfound hprovider ⊢
        rw [hfound, hprovider]

end ExecutionProvider

open ExecutionProvider

/-- The order `auto` prefers accelerators in, best first. -/
def autoOrder : List ExecutionProvider := [tensorRt, cuda, coreMl, webGpu]

/-- The providers a machine offers. -/
structure Supported where
  cpu : Bool
  coreml : Bool
  cuda : Bool
  tensorrt : Bool
  webgpu : Bool

namespace Supported

/-- What a machine offers: CoreML on macOS, WebGPU as the runtime's load found it, CUDA and
TensorRT as the caller reports them. -/
def detect (macos webgpuOffered cuda tensorrt : Bool) : Supported where
  cpu := true
  coreml := macos
  cuda := cuda
  tensorrt := cuda && tensorrt
  webgpu := webgpuOffered

def supports (supported : Supported) : ExecutionProvider → Bool
  | .auto => true
  | .cpu => supported.cpu
  | .coreMl => supported.coreml
  | .cuda => supported.cuda
  | .tensorRt => supported.tensorrt
  | .webGpu => supported.webgpu

/-- Every provider a session can run on here. -/
def available (supported : Supported) : List ExecutionProvider :=
  all.filter fun provider => provider != .auto && supported.supports provider

theorem mem_available {supported : Supported} {provider : ExecutionProvider} :
    provider ∈ supported.available ↔
      provider ≠ .auto ∧ supported.supports provider = true := by
  simp [available, mem_all]

end Supported

/-- What a request for one provider is a request for. -/
def expanded : ExecutionProvider → List ExecutionProvider
  | .auto => autoOrder
  | provider => [provider]

/-- The accelerators of a request that a machine offers, in the order they are tried. -/
def chainAfter (supported : Supported) (chain : List ExecutionProvider) :
    List ExecutionProvider → List ExecutionProvider
  | [] => chain
  | provider :: requested =>
      if provider = .cpu then
        chain
      else
        chainAfter supported
          ((expanded provider).foldl
            (fun chain accelerator =>
              if supported.supports accelerator && !decide (accelerator ∈ chain) then
                chain ++ [accelerator]
              else
                chain)
            chain)
          requested

/-- The rungs a session for `requested` is tried on, in order. -/
def ladder (requested : List ExecutionProvider) (supported : Supported) :
    List (List ExecutionProvider) :=
  let chain := chainAfter supported [] requested
  (List.range chain.length).map (fun start => chain.drop start) ++ [[]]

/-- What a request asks for, one accelerator after another: the CPU ends it. -/
def accelerators (requested : List ExecutionProvider) : List ExecutionProvider :=
  (requested.takeWhile (· ≠ .cpu)).flatMap expanded

theorem isAccelerator_of_mem_expanded {provider accelerator : ExecutionProvider}
    (hprovider : provider ≠ .cpu) (h : accelerator ∈ expanded provider) :
    accelerator.isAccelerator = true := by
  have hauto : ∀ accelerator ∈ autoOrder, accelerator.isAccelerator = true := by decide
  cases provider with
  | auto => exact hauto accelerator h
  | cpu => exact absurd rfl hprovider
  | _ =>
      rw [List.mem_singleton.mp h]
      rfl

theorem isAccelerator_of_mem_accelerators {requested : List ExecutionProvider}
    {accelerator : ExecutionProvider} (h : accelerator ∈ accelerators requested) :
    accelerator.isAccelerator = true := by
  obtain ⟨provider, hprovider, hmem⟩ := List.mem_flatMap.mp h
  have hcpu := List.mem_takeWhile_imp hprovider
  exact isAccelerator_of_mem_expanded (of_decide_eq_true hcpu) hmem

theorem chainAfter_eq (supported : Supported) (chain requested : List ExecutionProvider) :
    chainAfter supported chain requested =
      pushAll chain ((accelerators requested).filter supported.supports) := by
  induction requested generalizing chain with
  | nil => rfl
  | cons provider requested ih =>
      unfold chainAfter accelerators
      by_cases hcpu : provider = .cpu
      · rw [if_pos hcpu, List.takeWhile_cons_of_neg (by simpa using hcpu)]
        rfl
      · rw [if_neg hcpu, List.takeWhile_cons_of_pos (by simpa using hcpu), List.flatMap_cons,
          List.filter_append, pushAll_append, ih, foldl_filter_pushNew]
        rfl

/-- The chain has the offered accelerators that are wanted, each at its first place. -/
theorem firsts_chain (supported : Supported) (requested : List ExecutionProvider) :
    Firsts ((accelerators requested).filter supported.supports)
      (chainAfter supported [] requested) := by
  rw [chainAfter_eq]
  exact firsts_pushAll _

theorem isAccelerator_of_mem_chain {supported : Supported} {requested : List ExecutionProvider}
    {accelerator : ExecutionProvider} (h : accelerator ∈ chainAfter supported [] requested) :
    accelerator.isAccelerator = true ∧ supported.supports accelerator = true := by
  have hmem := ((firsts_chain supported requested).mem accelerator).mp h
  obtain ⟨hwanted, hsupports⟩ := List.mem_filter.mp hmem
  exact ⟨isAccelerator_of_mem_accelerators hwanted, hsupports⟩

theorem map_drop_range {α : Type*} (xs : List α) :
    (List.range xs.length).map (fun start => xs.drop start) ++ [[]] = xs.tails := by
  induction xs with
  | nil => rfl
  | cons x xs ih => simpa [List.range_succ_eq_map, Function.comp_def] using ih

/-- The rungs are the chain and what is left of it without its first few accelerators, down to
nothing, which is the CPU. -/
theorem ladder_eq_tails (requested : List ExecutionProvider) (supported : Supported) :
    ladder requested supported = (chainAfter supported [] requested).tails :=
  map_drop_range _

example : ladder [.auto] ⟨true, true, false, false, true⟩ =
    [[.coreMl, .webGpu], [.webGpu], []] := by
  decide

end Ai

end RustSak
