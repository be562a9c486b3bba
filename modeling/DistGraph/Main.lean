import DistGraph.Demo

/-! The command line of the demonstration. -/

/-- Builds the graph of the demonstration on as many ranks as the environment asks for. -/
def main : IO UInt32 := do
  -- The log and the reasons of a refusal go to the standard error output.
  let transcript := DistGraph.Demo.run (← IO.getEnv "GRAPH_RANKS")
  transcript.log.forM IO.eprintln
  transcript.stdout.forM IO.println
  transcript.stderr.forM IO.eprintln
  return transcript.exitCode.toUInt32
