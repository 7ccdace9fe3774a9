import Cusco.CancellationIsolation
import Cusco.ControlOwnership
import Cusco.AdmissionQueue
import Cusco.ResponseLineage
import Cusco.GuardedCapacity
import Cusco.CoherentTransitions
import Cusco.ReplayPrompts
import Cusco.CopyProvenance
import Cusco.LeakedRepresentations
import Cusco.ExactReferences
import Cusco.HttpTransparency
import Cusco.SafeRecords
import Cusco.ResidencyRetirement
import Cusco.MappingRuns
import Cusco.Starvation
import Cusco.JobStates
import Cusco.SchedulerSlots
import Cusco.SchedulerHygiene
import Cusco.PolicyShares
import Cusco.StreamDecoding
import Cusco.TokenSequences
import Cusco.PrequeueGate
import Cusco.PullOperations
import Cusco.SpillAccounts
import Cusco.ContextLifetimes
import Cusco.EngineTransparency
import Cusco.NewestTurns
import Cusco.GgufRoundTrip
import Cusco.Downloads
import Cusco.DeclarationLimits
import Cusco.AliasResolution
import Cusco.ProfileStability
import Cusco.CachePaths
import Cusco.WellFormedStreams
import Cusco.ForgedTurns
import Cusco.ReleasedRuns
import Cusco.JsonCompleteness
import Cusco.SchemaCompleteness
import Cusco.GgufAcceptance
import Cusco.ImageAdmission
import Cusco.WireAgreement
import Cusco.SharedPrefixes
import Cusco.ServerContexts
import Cusco.ScheduledRuns
