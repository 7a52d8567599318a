import NaiveFS.Owners
import NaiveFS.Failure
import NaiveFS.DirectoryMap
import NaiveFS.Bounds
import NaiveFS.Allocators
import NaiveFS.Persistence
import NaiveFS.Mkfs
import NaiveFS.BlockMap
import NaiveFS.Names
import NaiveFS.Contents
import NaiveFS.Fsck
import NaiveFS.Concurrent
import NaiveFS.Myext2
import NaiveFS.References
import NaiveFS.Codec
import NaiveFS.Growth
import NaiveFS.Emptiness
import NaiveFS.Descriptors
import NaiveFS.Leftover
import NaiveFS.Refine
import NaiveFS.Returns
import NaiveFS.Lifetime
import NaiveFS.Reload
import NaiveFS.Dropped
import NaiveFS.Final.Enumeration
import NaiveFS.V8.Identity
import NaiveFS.V8.File
import NaiveFS.V8.Frame
import NaiveFS.V8.Sizes
import NaiveFS.V8.Release
import NaiveFS.V8.Teardown
import NaiveFS.V8.Gaps
import NaiveFS.V8.Hosts
import NaiveFS.V8.Recall
