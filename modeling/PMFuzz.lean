import PMFuzz.Parallel.Bounds
import PMFuzz.Libpmfuzz.FailureInjection
import PMFuzz.Parallel.Completion
import PMFuzz.Parallel.Failure
import PMFuzz.Framework.Regex
import PMFuzz.Framework.Str
import PMFuzz.Libpmfuzz.Replay
import PMFuzz.Names.Grammar
import PMFuzz.Framework.Dir
import PMFuzz.Framework.Fold
import PMFuzz.Names.Metadata
import PMFuzz.Dedup.Engine
import PMFuzz.Dedup.Cmin
import PMFuzz.Dedup.Global
import PMFuzz.Dedup.FileDedup
import PMFuzz.Dedup.Local
import PMFuzz.Dedup.Tombstone
import PMFuzz.Stage2.Completed
import PMFuzz.Stage2.Schedule
import PMFuzz.Stage2.Live
import PMFuzz.Stage2.Cores
import PMFuzz.Stage2.Finish
import PMFuzz.Stage2.Launch
import PMFuzz.Stage2.Launched
import PMFuzz.Names.Parents
import PMFuzz.Dedup.Sync
import PMFuzz.Pipeline.Collect
import PMFuzz.Pipeline.Parents
import PMFuzz.Pipeline.Coverage
import PMFuzz.Libpmfuzz.Baseline
import PMFuzz.Libpmfuzz.Halves
import PMFuzz.Libpmfuzz.ImageGeneration
import PMFuzz.Framework.Glob
import PMFuzz.Names.Lineage
import PMFuzz.Names.CrashSites
import PMFuzz.Names.CrashImages
import PMFuzz.Names.SiteNames
import PMFuzz.Pipeline.Orphans
import PMFuzz.Pipeline.Generations
import PMFuzz.Driver.Model
import PMFuzz.Driver.Progress
import PMFuzz.Pipeline.Images
import PMFuzz.Names.Kinds
import PMFuzz.Names.Tags
import PMFuzz.Pipeline.RunDirs
import PMFuzz.Dedup.Recovery
import PMFuzz.Libpmfuzz.TableBounds
import PMFuzz.Dedup.Representatives
import PMFuzz.Dedup.Minimized
import PMFuzz.Dedup.Duplicates
import PMFuzz.Dedup.HashDb
import PMFuzz.Framework.Parts
import PMFuzz.Names.ImgPath
import PMFuzz.Framework.Normpath
import PMFuzz.Pipeline.FailureInj
import PMFuzz.Config.Check
import PMFuzz.Framework.Variables
import PMFuzz.Config.SubsPath
import PMFuzz.Driver.Whatsup
import PMFuzz.Driver.Resync
import PMFuzz.Libpmfuzz.HandleUse
import PMFuzz.Dedup.UpdateLocal
import PMFuzz.Dedup.LocalPaths
import PMFuzz.Annotation.BasicBlocks
import PMFuzz.Pipeline.Archives
import PMFuzz.Pipeline.Lcov
import PMFuzz.Framework.Digits
import PMFuzz.Libpmfuzz.PushBack
import PMFuzz.Stage2.TimerFile
import PMFuzz.Afl.Counts
import PMFuzz.Afl.CalibrationRuns
import PMFuzz.Afl.Session
import PMFuzz.Pipeline.LiveQueue
import PMFuzz.Afl.Imports
