import Ips.RustPrelude
import Ips.Peg
import Ips.PegNodes
import Ips.PegReaders
import Ips.PegSegments
import Ips.PegLines
import Ips.Digest
import Ips.Actions
import Ips.ManifestGrammar
import Ips.ManifestParse
import Ips.ActionConversions
import Ips.ManifestReader
import Ips.ManifestCanonical
import Ips.ManifestText
import Ips.ManifestNodes
import Ips.ManifestSegments
import Ips.ManifestSeam
import Ips.ManifestAppend
import Ips.ManifestSelfContained
import Ips.ManifestFailures
import Ips.ManifestKeywords
import Ips.ManifestLogicalLines
import Ips.ManifestQuoting
import Ips.ActionRecovery
import Ips.ActionFields
import Ips.ActionFacets
import Ips.ActionPayload
import Ips.ComponentDiff
import Ips.ComponentReplacements
import Ips.ComponentOutput
import Ips.Makefile
import Ips.MakefileReader
import Ips.MakefileAssignments
import Ips.MakefileLines
import Ips.MakefilePlain
import Ips.MakefileMerge
import Ips.MakefileInclude
import Ips.MakefileTextual
import Ips.Cycles
import Ips.MakefileFiles
import Ips.MakefileProcess
import Ips.MakefileLookup
import Ips.MakefileSubstitution
import Ips.SpecFile
import Ips.SpecFileReader
import Ips.SpecFileLines
import Ips.SpecFileFailures
import Ips.SpecFileSections
import Ips.SpecFileText
import Ips.SpecFileRepeats
import Ips.Macros
import Ips.MacroFailures
import Ips.MacroReader
import Ips.MacroLines
import Ips.MacroSubstitution
import Ips.BuildScript
import Ips.Component
import Ips.Repology
import Ips.TreeWalk
import Ips.Workspace
import Ips.WorkspaceConfinement
import Ips.Interaction
import Ips.Ports
import Ips.PortsRuns
import Ips.PortsPhases
import Ips.PortsFailures
import Ips.PortsSources
import Ips.PortsArchives
import Ips.PortsShell
import Ips.PortsPackage
import Ips.DiffCommand
import Ips.DiffWorld
import Ips.DiffReruns
import Ips.DiffRuns
