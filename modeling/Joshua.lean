import Joshua.Proofs.AdmissionRuns
import Joshua.Proofs.AnthropicBlocks
import Joshua.Proofs.CacheSim
import Joshua.Proofs.ClusterAgreement
import Joshua.Proofs.ExpertJobs
import Joshua.Proofs.GgufLayout
import Joshua.Proofs.HugePages
import Joshua.Proofs.NativeRuns
import Joshua.Proofs.NgramDrafter
import Joshua.Proofs.PartitionOrder
import Joshua.Proofs.PipelineRuns
import Joshua.Proofs.PipelineSplit
import Joshua.Proofs.Prefill
import Joshua.Proofs.PrefixCacheHistory
import Joshua.Proofs.ReasoningHarmonyCuts
import Joshua.Proofs.ResidencyLeases
import Joshua.Proofs.RouterRetry
import Joshua.Proofs.StopSequences
import Joshua.Proofs.TcpRingReduce
import Joshua.Proofs.TemplateInjection
import Joshua.Proofs.Timestamp
import Joshua.Proofs.ToolSectionFormats
import Joshua.Proofs.UdpReduceSafety
import Joshua.Proofs.WireReplay
