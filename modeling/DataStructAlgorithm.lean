import DataStructAlgorithm.DataStruct.RBTree.Runs
import DataStructAlgorithm.DataStruct.RBTree.Check
import DataStructAlgorithm.DataStruct.MyMap.Runs
import DataStructAlgorithm.DataStruct.AVLTree.Runs
import DataStructAlgorithm.DataStruct.AVLTree.Contents
import DataStructAlgorithm.DataStruct.Multiway.Runs
import DataStructAlgorithm.DataStruct.HashTable.Runs
import DataStructAlgorithm.Foundation.SpanningTree
import DataStructAlgorithm.Foundation.VertexCycles
import DataStructAlgorithm.Algorithm.Graph.MinimumTree
import DataStructAlgorithm.Algorithm.Union.Runs
import DataStructAlgorithm.FileComPress.Optimality
import DataStructAlgorithm.DataStruct.BinarySearchTree.Runs
import DataStructAlgorithm.DataStruct.BinarySearchTree.Traversals
import DataStructAlgorithm.DataStruct.Multiway.WellFormed
import DataStructAlgorithm.HTTPD2.PoolRuns
import DataStructAlgorithm.HTTPD2.Write
import DataStructAlgorithm.DataStruct.Alloc.Runs
import DataStructAlgorithm.Foundation.CString
import DataStructAlgorithm.HTTPD2.Input
import DataStructAlgorithm.HTTPD2.Request
import DataStructAlgorithm.HTTPD2.Fields
import DataStructAlgorithm.HTTPD2.IndexBounds
import DataStructAlgorithm.HTTPD2.WellFormed
import DataStructAlgorithm.HTTPD2.ErrorCodes
import DataStructAlgorithm.DataStruct.BinaryTree.BinaryTree
import DataStructAlgorithm.DataStruct.BinaryTree.CommFather
import DataStructAlgorithm.DataStruct.BinaryTree.MaxLen
import DataStructAlgorithm.DataStruct.ThreadTree.Destroy
import DataStructAlgorithm.DataStruct.Multiway.Duplicates
import DataStructAlgorithm.DataStruct.HashTable.Termination
import DataStructAlgorithm.DataStruct.HashTable.Uniqueness
import DataStructAlgorithm.FileComPress.RoundTrip
import DataStructAlgorithm.FileComPress.CountTree
import DataStructAlgorithm.FileComPress.ZipRoundTrip
import DataStructAlgorithm.DataStruct.Bitset.BloomFilter
import DataStructAlgorithm.HTTPD.Headers
import DataStructAlgorithm.HTTPD1.ProcessPool
import DataStructAlgorithm.HTTPD2.Users
import DataStructAlgorithm.HTTPD.Date
import DataStructAlgorithm.Algorithm.Trie.Runs
import DataStructAlgorithm.HTTPD2.Chunks
import DataStructAlgorithm.HTTPD2.HeaderOrder
import DataStructAlgorithm.HTTPD1.Histories
import DataStructAlgorithm.DataStruct.Bitset.Count
import DataStructAlgorithm.Algorithm.Sort.Selection
import DataStructAlgorithm.Algorithm.Sort.BubbleSort
import DataStructAlgorithm.Algorithm.Sort.CountSort
import DataStructAlgorithm.Algorithm.Sort.Holes
import DataStructAlgorithm.Algorithm.Sort.Recursion
import DataStructAlgorithm.Algorithm.Sort.HeapSort
import DataStructAlgorithm.Algorithm.MinStack.Quicksort
import DataStructAlgorithm.FileComPress.HeapRuns
import DataStructAlgorithm.Algorithm.MinStack.TwoContainers
import DataStructAlgorithm.Algorithm.MinStack.MinStack
import DataStructAlgorithm.Algorithm.MinStack.PopOrder
import DataStructAlgorithm.Algorithm.MinStack.Memcpy
import DataStructAlgorithm.Algorithm.Graph.Disconnected
import DataStructAlgorithm.Algorithm.Graph.Adjacency
import DataStructAlgorithm.Foundation.Search
import DataStructAlgorithm.Algorithm.Graph.Traversals
import DataStructAlgorithm.Algorithm.Graph.GraphMartix
import DataStructAlgorithm.DataStruct.AVLTree.Restoring
import DataStructAlgorithm.Foundation.Overlap
import DataStructAlgorithm.Algorithm.Greed.ConcurrentActivities
import DataStructAlgorithm.Foundation.Shuffles
import DataStructAlgorithm.Algorithm.Shuffle.Shuffle
import DataStructAlgorithm.Algorithm.Shuffle.Arrangements
import DataStructAlgorithm.DataStruct.Alloc.Chunks
import DataStructAlgorithm.DataStruct.Alloc.Refills
import DataStructAlgorithm.FileComPress.CodeWords
import DataStructAlgorithm.FileComPress.Ending
import DataStructAlgorithm.FileComPress.ZipSearch
import DataStructAlgorithm.FileComPress.ZipTokens
import DataStructAlgorithm.HTTPD2.Additions
import DataStructAlgorithm.HTTPD1.RequestLine
import DataStructAlgorithm.HTTPD1.Receiving
import DataStructAlgorithm.HTTPD.DateOrder
import DataStructAlgorithm.HTTPD.DateDifference
import DataStructAlgorithm.Foundation.Segments
import DataStructAlgorithm.Algorithm.Trie.DictionaryTree
import DataStructAlgorithm.HTTPD.MysqlProcess
import DataStructAlgorithm.HTTPD2.EventLoop
import DataStructAlgorithm.HTTPD2.OneShot
import DataStructAlgorithm.HTTPD2.Settling
import DataStructAlgorithm.HTTPD2.Processing
import DataStructAlgorithm.HTTPD2.Delivery
import DataStructAlgorithm.Foundation.Simulation
import DataStructAlgorithm.HTTPD2.Reuse
import DataStructAlgorithm.Foundation.ByteProgram
import DataStructAlgorithm.HTTPD.ExecCgi
import DataStructAlgorithm.HTTPD.Relay
import DataStructAlgorithm.HTTPD.Completion
import DataStructAlgorithm.HTTPD.CgiPrograms
import DataStructAlgorithm.HTTPD.Served
import DataStructAlgorithm.Foundation.PrefixCode
import DataStructAlgorithm.FileComPress.Shortest
import DataStructAlgorithm.HTTPD2.Httpd
import DataStructAlgorithm.HTTPD2.Isolation
import DataStructAlgorithm.HTTPD1.Serving
import DataStructAlgorithm.HTTPD1.Answers
