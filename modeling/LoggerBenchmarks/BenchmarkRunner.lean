import LoggerBenchmarks.PosixPaths

set_option autoImplicit false

/-!
# The benchmark runner

`run_all.py`: which executables are run, where they are, and the layout of the
file each one's standard output is written to.
-/
namespace LoggerBenchmarks.BenchmarkRunner
open PythonText PosixPaths

def callSiteDir (root : List Name) : List Name :=
  root ++ ["cmake-build-release".toList, "benchmarks".toList, "call_site_latency".toList]

def backendTotalDir (root : List Name) : List Name :=
  root ++ ["cmake-build-release".toList, "benchmarks".toList, "backend_total_time".toList]

def callSiteBenchmarks : List Name :=
  ["benchmark_quill_with_functions_unbounded_call_site_latency_int_int_double".toList,
    "benchmark_quill_unbounded_call_site_latency_int_int_double".toList,
    "benchmark_quill_bounded_call_site_latency_int_int_double".toList,
    "benchmark_fmtlog_call_site_latency_int_int_double".toList,
    "benchmark_xtr_call_site_latency_int_int_double".toList,
    "benchmark_platformlab_call_site_latency_int_int_double".toList,
    "benchmark_ms_binlog_call_site_latency_int_int_double".toList,
    "benchmark_spdlog_call_site_latency_int_int_double".toList,
    "benchmark_g3log_call_site_latency_int_int_double".toList,
    "benchmark_iyengar_nanolog_call_site_latency_int_int_double".toList,
    "benchmark_reckless_call_site_latency_int_int_double".toList,
    "benchmark_boost_log_call_site_latency_int_int_double".toList,
    "benchmark_bqlog_call_site_latency_int_int_double".toList,
    "benchmark_quill_with_functions_unbounded_call_site_latency_int_int_largestr".toList,
    "benchmark_quill_unbounded_call_site_latency_int_int_largestr".toList,
    "benchmark_quill_bounded_call_site_latency_int_int_largestr".toList,
    "benchmark_fmtlog_call_site_latency_int_int_largestr".toList,
    "benchmark_xtr_call_site_latency_int_int_largestr".toList,
    "benchmark_platformlab_call_site_latency_int_int_largestr".toList,
    "benchmark_ms_binlog_call_site_latency_int_int_largestr".toList,
    "benchmark_spdlog_call_site_latency_int_int_largestr".toList,
    "benchmark_g3log_call_site_latency_int_int_largestr".toList,
    "benchmark_iyengar_nanolog_call_site_latency_int_int_largestr".toList,
    "benchmark_reckless_call_site_latency_int_int_largestr".toList,
    "benchmark_boost_log_call_site_latency_int_int_largestr".toList,
    "benchmark_bqlog_call_site_latency_int_int_largestr".toList,
    "benchmark_quill_unbounded_call_site_latency_vector_largestr".toList,
    "benchmark_quill_bounded_call_site_latency_vector_largestr".toList,
    "benchmark_fmtlog_call_site_latency_int_vector_largestr".toList,
    "benchmark_xtr_call_site_latency_int_vector_largestr".toList,
    "benchmark_ms_binlog_call_site_latency_int_vector_largestr".toList,
    "benchmark_spdlog_call_site_latency_int_vector_largestr".toList,
    "benchmark_boost_log_call_site_latency_int_vector_largestr".toList]

def backendTotalBenchmarks : List Name :=
  ["BENCHMARK_ms_binlog_backend_total_time".toList,
    "BENCHMARK_bqlog_binary_backend_total_time".toList,
    "BENCHMARK_xtr_backend_total_time".toList,
    "BENCHMARK_quill_backend_total_time".toList,
    "BENCHMARK_spdlog_backend_total_time".toList,
    "BENCHMARK_fmtlog_backend_total_time".toList,
    "BENCHMARK_reckless_backend_total_time".toList,
    "BENCHMARK_quill_with_functions_backend_total_time".toList,
    "BENCHMARK_bqlog_backend_total_time".toList,
    "BENCHMARK_boost_log_backend_total_time".toList,
    "BENCHMARK_nanolog_backend_total_time".toList,
    "BENCHMARK_iyengar_nanolog_backend_total_time".toList]

def benchmarkPaths (root : List Name) : List (List Name) :=
  callSiteBenchmarks.map (callSiteDir root ++ [·]) ++
    backendTotalBenchmarks.map (backendTotalDir root ++ [·])

def benchWords : Text := "bench: ".toList

def resultFile (bench output : Text) : Text := benchWords ++ bench ++ '\n' :: output

def resultFileName (i : ℕ) : Name := "bench_results_".toList ++ str i ++ ".txt".toList

/-- Name and text of the files of a run; it may have stopped before the last benchmark. -/
def writtenFiles (root : List Name) (outputs : List Text) : List (Name × Text) :=
  ((benchmarkPaths root).zip outputs).zipIdx.map fun ((bench, output), i) =>
    (resultFileName i, resultFile (render bench) output)

end LoggerBenchmarks.BenchmarkRunner
