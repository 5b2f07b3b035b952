import Pysubunit.V2.TagStream
import Pysubunit.Filter.ScopeTheorems
import Pysubunit.Filter.TimingTheorems
import Pysubunit.Filter.CollapseTheorems
import Pysubunit.V1.FragmentTheorems
import Pysubunit.V1.HeaderTheorems
import Pysubunit.V1.RoundTripTheorems
import Pysubunit.V2.MixedStreamTheorems
import Pysubunit.V2.RunTheorems
import Pysubunit.Tap.DiagnosticTheorems
import Pysubunit.Output.StreamResults
import Pysubunit.Progress.ProgressModel
import Pysubunit.Results.TestByTestResult
import Pysubunit.Results.TestIdPrintingResult
import Pysubunit.V1.RejectionTheorems
import Pysubunit.ToDisk.RereadTheorems
import Pysubunit.V2.BurstTheorems
import Pysubunit.V2.ConcatTheorems
import Pysubunit.V2.BytewiseTheorems
import Pysubunit.V2.TagChainTheorems
import Pysubunit.V2.UnnamedTheorems
import Pysubunit.Output.WriteTheorems
import Pysubunit.Tap.ReportTheorems
import Pysubunit.Filter.RunTests
import Pysubunit.V1.ForwardTheorems
import Pysubunit.V1.RelayTheorems
import Pysubunit.V1.LenientTheorems
import Pysubunit.Results.ListTests
import Pysubunit.Results.CsvResult
import Pysubunit.Filter.TagFilter
