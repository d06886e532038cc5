import LlmkubeRuntimes.Lib.System
import LlmkubeRuntimes.Exl3.Engine
import LlmkubeRuntimes.Exl3.Isolation
import LlmkubeRuntimes.Promoter.Pipeline
import LlmkubeRuntimes.Promoter.Promotion
import LlmkubeRuntimes.Promoter.Revisions
import LlmkubeRuntimes.Promoter.Once
import LlmkubeRuntimes.Lib.Utf8
import LlmkubeRuntimes.Lib.JsonText
import LlmkubeRuntimes.Promoter.StateFile
import LlmkubeRuntimes.Roce.Routes
import LlmkubeRuntimes.Roce.Symmetry
import LlmkubeRuntimes.Roce.Optimal
import LlmkubeRuntimes.Roce.Connect
import LlmkubeRuntimes.Roce.Mutual
import LlmkubeRuntimes.Exl3.Tokens
import LlmkubeRuntimes.Exl3.Load
import LlmkubeRuntimes.Exl3.SingleLoad
import LlmkubeRuntimes.Exl3.Serve
import LlmkubeRuntimes.Exl3.Answers
import LlmkubeRuntimes.Exporter.Sysfs
import LlmkubeRuntimes.Exporter.Collect
import LlmkubeRuntimes.Exporter.Series
import LlmkubeRuntimes.Exporter.Text
import LlmkubeRuntimes.Pins.Series
import LlmkubeRuntimes.Lib.Steps
import LlmkubeRuntimes.Pins.Gate
import LlmkubeRuntimes.Pins.Stack
import LlmkubeRuntimes.Pins.Soundness
import LlmkubeRuntimes.Engram.Prefetch
import LlmkubeRuntimes.Engram.Invariant
import LlmkubeRuntimes.Engram.Preserved
import LlmkubeRuntimes.Engram.Rows
import LlmkubeRuntimes.Engram.Hash
import LlmkubeRuntimes.Engram.Task
import LlmkubeRuntimes.Engram.Contained
import LlmkubeRuntimes.Pins.SeriesLine
import LlmkubeRuntimes.Pins.Written
import LlmkubeRuntimes.Lib.Marked
import LlmkubeRuntimes.Exl3.Chat
import LlmkubeRuntimes.Pins.Status
import LlmkubeRuntimes.Lib.Spans
import LlmkubeRuntimes.Roce.Stripes
import LlmkubeRuntimes.Lib.Tensor
import LlmkubeRuntimes.Trellis.Independent
import LlmkubeRuntimes.Lib.Lines
import LlmkubeRuntimes.Nvfp4.Gate
import LlmkubeRuntimes.Nvfp4.Verdict
import LlmkubeRuntimes.Pins.Carried
import LlmkubeRuntimes.Lib.Compact
import LlmkubeRuntimes.Promoter.Smoke
import LlmkubeRuntimes.Dockerfile.Check
import LlmkubeRuntimes.Dockerfile.Layout
import LlmkubeRuntimes.Dockerfile.Shell
import LlmkubeRuntimes.Dockerfile.Faithful
import LlmkubeRuntimes.Prefill.Rows
import LlmkubeRuntimes.Prefill.Threshold
import LlmkubeRuntimes.Prefill.Forward
import LlmkubeRuntimes.Prefill.Indexer
import LlmkubeRuntimes.Draft.Greedy
import LlmkubeRuntimes.Draft.DeadRows
import LlmkubeRuntimes.Profile.DummyBlocks
import LlmkubeRuntimes.Glm53.Grammar
import LlmkubeRuntimes.Glm53.Stops
import LlmkubeRuntimes.Glm53.Workspace
import LlmkubeRuntimes.Lib.RadixSelect
import LlmkubeRuntimes.Lib.Top
import LlmkubeRuntimes.TopK.Rows
import LlmkubeRuntimes.KvCache.FreeQueue
import LlmkubeRuntimes.Lib.Links
import LlmkubeRuntimes.KvCache.BlockHash
import LlmkubeRuntimes.Glm53.SlotMap
import LlmkubeRuntimes.Lib.Bisect
import LlmkubeRuntimes.KvCache.AutoFit
import LlmkubeRuntimes.Lib.Replace
import LlmkubeRuntimes.Glm53.Spinwait
import LlmkubeRuntimes.Glm53.Patchers
