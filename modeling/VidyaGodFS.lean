import VidyaGodFS.Prog
import VidyaGodFS.Slice
import VidyaGodFS.Bisect
import VidyaGodFS.RollingHash
import VidyaGodFS.Tree
import VidyaGodFS.Disk
import VidyaGodFS.Straight
import VidyaGodFS.Spared
import VidyaGodFS.Host
import VidyaGodFS.Calm
import VidyaGodFS.ByteSource
import VidyaGodFS.Concat
import VidyaGodFS.ZipLayer
import VidyaGodFS.ZipScan
import VidyaGodFS.ZipLinks
import VidyaGodFS.ZipWalk
import VidyaGodFS.ZipStored
import VidyaGodFS.ZipPlain
import VidyaGodFS.ZipValidator
import VidyaGodFS.ZipListing
import VidyaGodFS.Layers
import VidyaGodFS.Overlay
import VidyaGodFS.VfsOps
import VidyaGodFS.HostOnly
import VidyaGodFS.Gentle
import VidyaGodFS.NoWriteBranch
import VidyaGodFS.Writelayer
import VidyaGodFS.CopyUp
import VidyaGodFS.CopyKind
import VidyaGodFS.DirVerdicts
import VidyaGodFS.KeptFolders
import VidyaGodFS.Visits
import VidyaGodFS.Contained
import VidyaGodFS.Seeding
import VidyaGodFS.Deletions
import VidyaGodFS.Ways
import VidyaGodFS.MarkerWays
import VidyaGodFS.Markers
import VidyaGodFS.Recorded
import VidyaGodFS.Named
import VidyaGodFS.Tidy
import VidyaGodFS.Marking
import VidyaGodFS.Provenance
import VidyaGodFS.Masks
import VidyaGodFS.DeltaFormat
import VidyaGodFS.DeltaSource
import VidyaGodFS.DeltaReader
import VidyaGodFS.DeltaCompose
import VidyaGodFS.DeltaGenerate
import VidyaGodFS.DeltaRoundTrip
import VidyaGodFS.DeltaMatch
import VidyaGodFS.DeltaChain
import VidyaGodFS.DeltaEnds
import VidyaGodFS.BlockCache
import VidyaGodFS.DeltaAccept
import VidyaGodFS.DeltaRefuse
import VidyaGodFS.DeltaFaults
import VidyaGodFS.Stack
import VidyaGodFS.StackChains
import VidyaGodFS.StackMasks
import VidyaGodFS.StackAlike
import VidyaGodFS.StackStreams
import VidyaGodFS.StackSkips
import VidyaGodFS.Dropped
import VidyaGodFS.StackCollapse
import VidyaGodFS.Unnamed
import VidyaGodFS.Served
import VidyaGodFS.SpecMount
import VidyaGodFS.ChainRun
import VidyaGodFS.ChainArchive
import VidyaGodFS.DeltaVerify
import VidyaGodFS.CaseFold
import VidyaGodFS.CaseNames
import VidyaGodFS.Interleave
import VidyaGodFS.CopyRace
import VidyaGodFS.Remount
import VidyaGodFS.LayerNames
import VidyaGodFS.Scene
import VidyaGodFS.Entries
import VidyaGodFS.CopyContent
import VidyaGodFS.SceneFrame
import VidyaGodFS.SceneList
import VidyaGodFS.SceneSteps
import VidyaGodFS.SceneOps
import VidyaGodFS.SceneDeep
import VidyaGodFS.SceneBytes
import VidyaGodFS.CopyAlone
import VidyaGodFS.SceneMove
import VidyaGodFS.Ground
import VidyaGodFS.SceneRuns
