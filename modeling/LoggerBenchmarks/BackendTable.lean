import LoggerBenchmarks.BinaryRounding
import LoggerBenchmarks.InsertionDict
import LoggerBenchmarks.ResultFileParser

set_option autoImplicit false

/-!
# Collecting throughputs

Floats are only read and averaged; `meanFloat` is their sum divided by their number.
-/
namespace LoggerBenchmarks.BackendTable
open BinaryRounding InsertionDict PythonText ResultFileParser

structure BackendAverage (F : Type) where
  throughput : F
  elapsedMs : ℤ
  deriving DecidableEq

variable {F : Type} (float : Text → F) (meanFloat : List F → F) (divide : ℕ → ℕ → Option ℚ)

def addResult (samples : Dict Text (List (BackendResult F))) (result : BackendResult F) :
    Dict Text (List (BackendResult F)) :=
  samples.modify result.logger [] fun resultsList => resultsList ++ [result]

def addFile (samples : Dict Text (List (BackendResult F))) (file : Text) :
    Dict Text (List (BackendResult F)) :=
  let (benchPath, content) := readBenchFile file
  if !contains "backend_total_time".toList benchPath then samples
  else (parseBackendBench float benchPath content).elim samples (addResult samples)

def average (resultsList : List (BackendResult F)) : Option (BackendAverage F) :=
  (divide (resultsList.map BackendResult.elapsedMs).sum resultsList.length).map fun elapsed =>
    ⟨meanFloat (resultsList.map BackendResult.throughput), halfEven elapsed⟩

def collectBackendResults (files : List Text) : Option (Dict Text (BackendAverage F)) :=
  (files.foldl (addFile float) .empty).mapM (average meanFloat divide)

end LoggerBenchmarks.BackendTable
