import Zmux.ZpipCalls
import Zmux.ZpipRollback
import Zmux.ZpipSound
import Zmux.TabClients
import Zmux.TabScreen
import Zmux.TabSwitch
import Zmux.ClientReplay
import Zmux.StreamSwap
import Zmux.Console
import Zmux.ConsoleOrder
import Zmux.Pipeline
import Zmux.WsMessages
import Zmux.PtyFilter
import Zmux.PtySpawn
import Zmux.PtyDescriptors
import Zmux.WsSenders
import Zmux.WsControl
import Zmux.Keyboard
import Zmux.InterruptLatch
import Zmux.SessionTable
import Zmux.ZpipOwnership
import Zmux.SharedStore
import Zmux.ZpipThreads
import Zmux.ZpipVersion
import Zmux.IndexManifests
import Zmux.InspectElf
import Zmux.PublishGate
import Zmux.FitTerminal
import Zmux.FrameOrder
import Zmux.Reconnect
import Zmux.Keystore
import Zmux.TokenGate
import Zmux.CommandMode
import Zmux.LinuxSetup
import Zmux.ElfScan
import Zmux.ElfImage
import Zmux.ReplaceAll
import Zmux.TallocPatch
import Zmux.IndexFrame
import Zmux.OperatorGuard
import Zmux.PipelineCleanup
import Zmux.PipelineOutput
import Zmux.ConsoleBlocks
import Zmux.PathTree
import Zmux.FileCommands
import Zmux.ZpipExplicit
import Zmux.TallocMirror
import Zmux.KeyOrigins
import Zmux.HistoryWalk
import Zmux.WheelFilename
import Zmux.KeyedRecords
import Zmux.SourceLock
import Zmux.LineEndings
import Zmux.StreamingWriter
import Zmux.PtyInput
import Zmux.FreshLine
import Zmux.CuratedCatalog
import Zmux.LightestByKey
import Zmux.ZpipSearch
import Zmux.TreeChanges
import Zmux.Triples
import Zmux.SystemCalls
import Zmux.WheelDisk
import Zmux.WheelConfinement
import Zmux.WheelCommit
import Zmux.PathLookup
import Zmux.TarDisk
import Zmux.RootfsConfinement
import Zmux.GateRuns
import Zmux.LsRecursive
import Zmux.CrashLog
import Zmux.ZpipCycles
import Zmux.JsonDump
import Zmux.JsonPrefix
import Zmux.AtomicReplace
import Zmux.ZpipDatabase
import Zmux.VirtualKeys
import Zmux.InputPath
import Zmux.PruneDirs
import Zmux.UninstallTree
import Zmux.WheelDownload
import Zmux.TabStrip
import Zmux.TabGestures
import Zmux.PublishedWheel
import Zmux.OutputPath
import Zmux.TypedLines
import Zmux.ZpipVerify
import Zmux.ServerPorts
